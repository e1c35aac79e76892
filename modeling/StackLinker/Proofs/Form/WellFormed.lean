import StackLinker.Proofs.Form.Shapes

/-!
# Well-formed values

A value is well-formed if it holds no null and no malformed node.  A traversal stops at the first
node of either kind, so what it leaves behind when it reaches its end is well-formed, as long as the
action puts only well-formed values into the places of forms (`isWellFormed_of_rewrites`).

The converse needs care.  A node is looked at after its parts have been rewritten, and by then the
body of a reserved key may have changed its shape.  The only body that can is an argument map that
is itself a form; if such maps stay maps, the traversal of a well-formed value reaches its end
(`exists_rewrites_of_isWellFormed`).
-/

namespace StackLinker

variable {ν : Type}

namespace Value

/-- Whether a value has no null in it and every reserved key has a body of the right shape. -/
def isWellFormed (v : Value) : Bool :=
  v.nodes.all fun node => decide (node ≠ .null) && (Form.recognize? node).toOption.isSome

theorem isWellFormed_iff {v : Value} : v.isWellFormed = true ↔
    ∀ node ∈ v.nodes, node ≠ .null ∧ ∃ found, Form.recognize? node = .ok found := by
  have hsome : ∀ result : Except Malformation (Option Form),
      result.toOption.isSome = true ↔ ∃ found, result = .ok found := by
    intro result
    cases result <;> simp [Except.toOption]
  simp only [isWellFormed, List.all_eq_true, Bool.and_eq_true, decide_eq_true_eq, hsome]

variable {action : FormAction ν} {rule : Rule ν} {path : Path} {v w : Value} {notes later : ν}

/-- A value is well-formed if its root and its parts are. -/
theorem isWellFormed_iff_parts : v.isWellFormed = true ↔
    v ≠ .null ∧ (∃ found, Form.recognize? v = .ok found) ∧
      ∀ child ∈ v.children, child.2.isWellFormed = true := by
  simp only [isWellFormed_iff]
  constructor
  · intro h
    exact ⟨(h v (self_mem_nodes v)).1, (h v (self_mem_nodes v)).2, fun child hchild node hnode =>
      h node (mem_nodes_of_mem_children hchild hnode)⟩
  · rintro ⟨hnull, hform, hparts⟩ node hnode
    rcases mem_nodes.1 hnode with rfl | ⟨child, hchild, hnode⟩
    · exact ⟨hnull, hform⟩
    · exact hparts child hchild node hnode

theorem ne_null_of_isCompound (hv : v.isCompound = true) : v ≠ .null := by
  rintro rfl
  simp [isCompound] at hv

theorem null_notMem_nodes_of_isWellFormed (h : v.isWellFormed = true) : .null ∉ v.nodes :=
  fun hnull => (isWellFormed_iff.1 h _ hnull).1 rfl

/-- An ordinary node is well-formed if its parts are. -/
theorem isWellFormed_of_not_isReserved (hnull : v ≠ .null) (hordinary : v.isReserved = false)
    (hparts : ∀ child ∈ v.children, child.2.isWellFormed = true) : v.isWellFormed = true :=
  isWellFormed_iff_parts.2 ⟨hnull, ⟨none, recognize?_of_not_isReserved hordinary⟩, hparts⟩

theorem isWellFormed_list_iff {items : List Value} :
    (list items).isWellFormed = true ↔ ∀ item ∈ items, item.isWellFormed = true :=
  ⟨fun h => forall_children_list.1 (isWellFormed_iff_parts.1 h).2.2,
    fun h => isWellFormed_of_not_isReserved (by simp) rfl (forall_children_list.2 h)⟩

/-- A substitution is well-formed if its argument map is. -/
theorem isWellFormed_template_iff {pattern : String} {arguments : Option (Fields Value)} :
    (template pattern arguments).isWellFormed = true ↔
      ∀ map, arguments = some map → (Value.map map).isWellFormed = true := by
  simp only [isWellFormed_iff]
  exact forall_mem_nodes_template
    ⟨by simp [template], _, Form.recognize?_template pattern arguments⟩
    ⟨by simp [string], none, rfl⟩ fun _ => ⟨by simp, none, rfl⟩

end Value

/-! ## What a traversal leaves behind -/

/-- What an action makes of a well-formed node that stands for a form is well-formed. -/
def FormAction.KeepsWellFormed (action : FormAction ν) : Prop :=
  ∀ path node form notes, Form.recognize? node = .ok (some form) → node.isWellFormed = true →
    (action path node form notes).1.isWellFormed = true

/-- What an action makes of a map is a map. -/
def FormAction.KeepsMaps (action : FormAction ν) : Prop :=
  ∀ path entries form notes, ∃ done, (action path (.map entries) form notes).1 = .map done

namespace Value

variable {action : FormAction ν} {rule : Rule ν} {path : Path} {v w : Value} {notes later : ν}

/-- A traversal that reaches its end has met no null. -/
theorem null_notMem_nodes_of_rewrites (h : v.Rewrites rule path notes w later) :
    .null ∉ v.nodes := by
  refine rewrites_induction (Q := fun _ v _ _ _ => .null ∉ v.nodes) ?scalar ?compound h
  case scalar => simp [nodes]
  case compound =>
    intro _ v _ _ _ _ _ hv hthread _ hnull
    rcases mem_nodes.1 hnull with hself | ⟨child, hchild, hnode⟩
    · exact ne_null_of_isCompound hv hself.symm
    · obtain ⟨_, _, _, -, hpart⟩ := hthread.exists_of_mem hchild
      exact hpart hnode

/-- A traversal that reaches its end leaves a well-formed value behind. -/
theorem isWellFormed_of_rewrites (hkeeps : action.KeepsWellFormed)
    (h : v.Rewrites (Rule.ofForms action) path notes w later) : w.isWellFormed = true := by
  refine rewrites_induction (Q := fun _ _ _ w _ => w.isWellFormed = true) (fun _ _ _ => rfl)
    ?compound h
  case compound =>
    intro path v notes parts between w later hv hthread hrule
    have hnull : v.withChildren parts ≠ .null :=
      ne_null_of_isCompound ((isCompound_withChildren v parts).trans hv)
    have hparts : ∀ child ∈ (v.withChildren parts).children, child.2.isWellFormed = true := by
      rw [children_withChildren hthread.keys_eq]
      exact hthread.forall_after And.right
    -- The node itself has just been recognized.
    rcases Rule.ofForms_eq_ok hrule with ⟨hordinary, rfl, -⟩ | ⟨form, hform, hsettle⟩
    · exact isWellFormed_iff_parts.2 ⟨hnull, ⟨none, hordinary⟩, hparts⟩
    · have hnode := isWellFormed_iff_parts.2 ⟨hnull, ⟨some form, hform⟩, hparts⟩
      have hdone := hkeeps path _ form between hform hnode
      rwa [hsettle] at hdone

/-! ## Traversals that reach their end -/

theorem exists_map_of_rewrites (hkeeps : action.KeepsMaps) {entries : Fields Value}
    (h : Rewrites (Rule.ofForms action) path (.map entries) notes w later) :
    ∃ done, w = .map done := by
  obtain ⟨parts, between, -, hrule⟩ := (rewrites_iff rfl).1 h
  rcases Rule.ofForms_eq_ok hrule with ⟨-, rfl, -⟩ | ⟨form, -, hsettle⟩
  · exact ⟨parts, rfl⟩
  · obtain ⟨done, hdone⟩ := hkeeps path parts form between
    exact ⟨done, (congrArg Prod.fst hsettle).symm.trans hdone⟩

/-- A traversal that keeps maps keeps every node in its shape. -/
theorem shape_of_rewrites (hkeeps : action.KeepsMaps)
    (h : Rewrites (Rule.ofForms action) path v notes w later) : w.shape = v.shape := by
  cases v with
  | null => exact absurd h not_rewrites_null
  | scalar s => rw [(rewrites_scalar_iff.1 h).1]
  | list items =>
      obtain ⟨parts, rfl, -⟩ := (rewrites_of_not_isReserved rfl rfl).1 h
      rfl
  | map entries =>
      obtain ⟨done, rfl⟩ := exists_map_of_rewrites hkeeps h
      rfl
  | record header metadata properties =>
      obtain ⟨x, y, between, rfl, -, -⟩ := rewrites_record_iff.1 h
      rfl

/-- A traversal that keeps maps finds a text where it leaves one. -/
theorem eq_string_of_rewrites (hkeeps : action.KeepsMaps) {s : String}
    (h : Rewrites (Rule.ofForms action) path v notes (.string s) later) : v = .string s := by
  have hshape := shape_of_rewrites hkeeps h
  cases v with
  | scalar t => exact (rewrites_scalar_iff.1 h).1.symm
  | _ => simp [shape, string] at hshape

/-- A traversal that keeps maps finds a pair where it leaves one. -/
theorem exists_pair_of_keepsMaps (hkeeps : action.KeepsMaps) {first second : Value}
    (h : Rewrites (Rule.ofForms action) path v notes (.list [first, second]) later) :
    ∃ x y between, v = .list [x, y] ∧
      Rewrites (Rule.ofForms action) (path.push "0") x notes first between ∧
      Rewrites (Rule.ofForms action) (path.push "1") y between second later := by
  have hshape := shape_of_rewrites hkeeps h
  cases v with
  | list items =>
      obtain ⟨x, y, rfl⟩ := exists_two_of_rewrites h
      obtain ⟨_, _, between, hsame, hx, hy⟩ := rewrites_two_iff.1 h
      simp only [list.injEq, List.cons.injEq, and_true] at hsame
      obtain ⟨rfl, rfl⟩ := hsame
      exact ⟨x, y, between, rfl, hx, hy⟩
  | _ => simp [shape] at hshape

/-- A traversal that keeps maps only gets past a node that is not malformed. -/
private theorem exists_recognize? (hkeeps : action.KeepsMaps)
    (h : Rewrites (Rule.ofForms action) path v notes w later) :
    ∃ found, Form.recognize? v = .ok found := by
  cases hreserved : v.isReserved with
  | false => exact ⟨none, recognize?_of_not_isReserved hreserved⟩
  | true =>
      obtain ⟨key, hkey, body, rfl⟩ := exists_of_isReserved hreserved
      obtain ⟨after, between, hbody, hrule⟩ := rewrites_entry_iff.1 h
      have hform : ∃ found, Form.recognize? (.map [(key, after)]) = .ok found := by
        rcases Rule.ofForms_eq_ok hrule with ⟨hnone, -, -⟩ | ⟨form, hform, -⟩
        · exact ⟨none, hnone⟩
        · exact ⟨some form, hform⟩
      -- The body that was recognized has the shape of the body that was there before.
      obtain ⟨found, hform⟩ := hform
      cases found with
      | none =>
          have hordinary := Form.isReserved_eq_false_of_recognize? hform
          simp [isReserved, Fields.isReserved] at hreserved hordinary
          exact absurd hreserved (by simp [hordinary])
      | some form =>
          cases form with
          | reference name =>
              obtain ⟨rfl, rfl⟩ : key = Form.refKey ∧ after = .string name := by
                simpa [ref] using Form.recognize?_eq_reference_iff.1 hform
              rw [eq_string_of_rewrites hkeeps hbody]
              exact ⟨_, hform⟩
          | attributeOf name attr =>
              rcases Form.recognize?_eq_attributeOf hform with hshape | ⟨s, hshape, -⟩
              · obtain ⟨rfl, rfl⟩ : key = Form.getAttKey ∧
                    after = .list [.string name, .string attr] := by
                  simpa [getAtt] using hshape
                obtain ⟨x, y, _, rfl, hx, hy⟩ := exists_pair_of_keepsMaps hkeeps hbody
                rw [eq_string_of_rewrites hkeeps hx, eq_string_of_rewrites hkeeps hy]
                exact ⟨_, hform⟩
              · obtain ⟨rfl, rfl⟩ : key = Form.getAttKey ∧ after = .string s := by
                  simpa using hshape
                rw [eq_string_of_rewrites hkeeps hbody]
                exact ⟨_, hform⟩
          | substitution pattern arguments =>
              have hshape := Form.recognize?_eq_substitution_iff.1 hform
              cases arguments with
              | none =>
                  obtain ⟨rfl, rfl⟩ : key = Form.subKey ∧ after = .string pattern := by
                    simpa [template] using hshape
                  rw [eq_string_of_rewrites hkeeps hbody]
                  exact ⟨_, hform⟩
              | some map =>
                  obtain ⟨rfl, rfl⟩ : key = Form.subKey ∧
                      after = .list [.string pattern, .map map] := by
                    simpa [template] using hshape
                  obtain ⟨x, y, _, rfl, hx, hy⟩ := exists_pair_of_keepsMaps hkeeps hbody
                  have hmap := shape_of_rewrites hkeeps hy
                  rw [eq_string_of_rewrites hkeeps hx]
                  cases y with
                  | map entries => exact ⟨_, Form.recognize?_template pattern (some entries)⟩
                  | _ => simp [shape] at hmap

/-- A traversal that keeps maps only reaches its end on a well-formed value. -/
theorem isWellFormed_of_keepsMaps (hkeeps : action.KeepsMaps)
    (h : Rewrites (Rule.ofForms action) path v notes w later) : v.isWellFormed = true := by
  induction v using induction_on_children generalizing path notes w later with
  | h v ih =>
      refine isWellFormed_iff_parts.2 ⟨?_, exists_recognize? hkeeps h, fun child hchild => ?_⟩
      · rintro rfl
        exact not_rewrites_null h
      · have hv : v.isCompound = true := by
          cases v <;> first | rfl | simp [children] at hchild
        obtain ⟨parts, between, hthread, -⟩ := (rewrites_iff hv).1 h
        obtain ⟨n, y, m, hstep⟩ := hthread.exists_of_mem hchild
        exact ih child hchild hstep

/-- The traversal of a well-formed value reaches its end if argument maps stay maps. -/
theorem exists_rewrites_of_isWellFormed (hv : v.isWellFormed = true)
    (hmaps : ∀ pattern arguments, template pattern (some arguments) ∈ v.nodes →
      ∀ {path notes w later}, Rewrites (Rule.ofForms action) path (.map arguments) notes w later →
        ∃ done, w = .map done) (path : Path) (notes : ν) :
    ∃ w later, v.Rewrites (Rule.ofForms action) path notes w later := by
  induction v using induction_below generalizing path notes with
  | h v ih =>
      have hbelow : ∀ child ∈ v.children, ∀ node ∈ child.2.nodes, ∀ path notes, ∃ w later,
          node.Rewrites (Rule.ofForms action) path notes w later := by
        intro child hchild node hnode path notes
        have hnodes : ∀ inner ∈ node.nodes, inner ∈ v.nodes := fun inner hinner =>
          mem_nodes_of_mem_children hchild (mem_nodes_trans hnode hinner)
        refine ih child hchild node hnode ?_ (fun pattern arguments hinner =>
          hmaps pattern arguments (hnodes _ hinner)) path notes
        exact isWellFormed_iff.2 fun inner hinner => isWellFormed_iff.1 hv inner (hnodes inner hinner)
      obtain ⟨hnull, ⟨found, hform⟩, -⟩ := isWellFormed_iff_parts.1 hv
      cases found with
      | some form =>
          cases form with
          | reference key => exact ⟨_, _, (rewrites_target_iff hform rfl).2 rfl⟩
          | attributeOf key attr => exact ⟨_, _, (rewrites_target_iff hform rfl).2 rfl⟩
          | substitution pattern arguments =>
              obtain rfl := Form.recognize?_eq_substitution_iff.1 hform
              cases arguments with
              | none =>
                  exact ⟨_, _, (rewrites_template_iff rfl).2 ⟨[], notes, .nil notes, rfl⟩⟩
              | some arguments =>
                  -- The argument map stands two levels below.
                  have hmap : Value.map arguments ∈
                      (Value.list [.string pattern, .map arguments]).nodes :=
                    mem_nodes_of_mem_children (List.mem_cons_of_mem _ List.mem_cons_self)
                      (self_mem_nodes _)
                  obtain ⟨second, between, hsecond⟩ :=
                    hbelow _ List.mem_cons_self _ hmap (argumentsPath path) notes
                  obtain ⟨done, rfl⟩ := hmaps pattern arguments (self_mem_nodes _) hsecond
                  exact ⟨_, _, rewrites_body_iff.2 ⟨_, _, _, _, rewrites_scalar_iff.2 ⟨rfl, rfl⟩,
                    hsecond, Rule.ofForms_form (Form.recognize?_template pattern (some done)) _ _ _⟩⟩
      | none =>
          have hordinary := Form.isReserved_eq_false_of_recognize? hform
          cases hcompound : v.isCompound with
          | true =>
              obtain ⟨done, later, hthread⟩ : ∃ done later, Thread
                  (fun key => Rewrites (Rule.ofForms action) (path.push key)) v.children notes done
                  later :=
                Thread.exists_of_forall
                  (fun child hchild => hbelow child hchild child.2 (self_mem_nodes _) _) notes
              exact ⟨_, later,
                (rewrites_of_not_isReserved hcompound hordinary).2 ⟨done, rfl, hthread⟩⟩
          | false =>
              cases v with
              | null => exact absurd rfl hnull
              | scalar s => exact ⟨_, _, rewrites_scalar_iff.2 ⟨rfl, rfl⟩⟩
              | _ => simp [isCompound] at hcompound

end Value

end StackLinker

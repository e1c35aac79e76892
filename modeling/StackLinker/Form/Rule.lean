import StackLinker.Form
import StackLinker.Value.Traversal

/-!
# Rules for symbolic forms

Both passes over values look only at nodes that stand for something.  `Rule.ofForms` is the rule
that hands such a node to an action, leaves every ordinary node as it is, and ends the traversal at
a malformed one.  The statements say so case by case.
-/

namespace StackLinker

/-- What to do with a node that stands for a form. -/
abbrev FormAction (ν : Type) := Path → Value → Form → ν → Value × ν

namespace Rule

variable {ν : Type}

/-- The rule that applies an action to symbolic forms. -/
def ofForms (action : FormAction ν) : Rule ν := fun path node notes =>
  match Form.recognize? node with
  | .error reason => .error (.malformed path reason)
  | .ok none => .ok (node, notes)
  | .ok (some form) => .ok (action path node form notes)

theorem ofForms_malformed {node : Value} {reason : Malformation}
    (h : Form.recognize? node = .error reason) (action : FormAction ν) (path : Path) (notes : ν) :
    ofForms action path node notes = .error (.malformed path reason) := by
  simp [ofForms, h]

theorem ofForms_ordinary {node : Value} (h : Form.recognize? node = .ok none)
    (action : FormAction ν) (path : Path) (notes : ν) :
    ofForms action path node notes = .ok (node, notes) := by
  simp [ofForms, h]

theorem ofForms_form {node : Value} {form : Form} (h : Form.recognize? node = .ok (some form))
    (action : FormAction ν) (path : Path) (notes : ν) :
    ofForms action path node notes = .ok (action path node form notes) := by
  simp [ofForms, h]

end Rule

end StackLinker

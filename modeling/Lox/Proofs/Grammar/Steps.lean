import Lox.Grammar
import Lox.Proofs.Ending

/-!
# Single steps of a reader

How the readers end that cannot be stopped, and the one that cannot but be.
-/
namespace Lox.Grammar

variable (c : Cursor) (E : Stop → Cursor → Prop)

@[simp] theorem ends_current (Q : Token → Cursor → Prop) : Ends current c Q E ↔ Q c.current c :=
  Iff.rfl

@[simp] theorem ends_ahead (Q : List Token → Cursor → Prop) : Ends ahead c Q E ↔ Q c.ahead c :=
  Iff.rfl

@[simp] theorem ends_check (kind : Token.Kind) (Q : Bool → Cursor → Prop) :
    Ends (check kind) c Q E ↔ Q (c.current.kind = kind) c :=
  Iff.rfl

@[simp] theorem ends_advance (Q : Token → Cursor → Prop) :
    Ends advance c Q E ↔ Q c.current c.advance :=
  Iff.rfl

@[simp] theorem ends_freshSite (Q : Site → Cursor → Prop) :
    Ends freshSite c Q E ↔ Q c.nextSite { c with nextSite := c.nextSite + 1 } :=
  Iff.rfl

@[simp] theorem ends_tooDeep {α : Type} (Q : α → Cursor → Prop) :
    Ends tooDeep c Q E ↔ E .tooDeep c :=
  Iff.rfl

end Lox.Grammar

import Midend.Calls
import Midend.Representations
import Midend.Sharing
import Midend.Simplify
import Midend.Hoisting
import Midend.Proofs.Outcome

/-! # Edits that tell of every change

Most stages make no change without telling. Where one of their edits tells of none, the graph is the one it was.
-/

namespace Midend.Reports

open FlowGraph

variable {α β : Type} {g : FlowGraph}

/-! ## Telling -/

def Reads (g : FlowGraph) (m : Edit α) : Prop := Leads True g m fun _ g' => g' = g

/-- Unless it tells of a change, the edit, run from `g`, changes nothing. -/
def Honest (g : FlowGraph) (m : Edit Bool) : Prop := Leads True g m fun changed g' => changed = false → g' = g

def Affirms (m : Edit Bool) : Prop := ∀ g, Leads True g m fun changed _ => changed = true

namespace Affirms

theorem yes : Affirms (pure true) := fun _ => rfl

theorem bind {m : Edit α} {f : α → Edit Bool} (hf : ∀ a, Affirms (f a)) : Affirms (m >>= f) := by
  intro g
  rw [Leads.bind_iff]
  exact .of_ok fun a g' _ => hf a g'

theorem ite {c : Prop} [Decidable c] {m m' : Edit Bool} (hm : Affirms m) (hm' : Affirms m') :
    Affirms (if c then m else m') := by
  split
  · exact hm
  · exact hm'

theorem leads {m : Edit Bool} {P : FlowGraph → Prop} (h : Affirms m) :
    Leads True g m fun changed g' => changed = false → P g' :=
  (h g).mono fun _ _ htrue hfalse => absurd (htrue.symm.trans hfalse) Bool.noConfusion

theorem honest {m : Edit Bool} (h : Affirms m) : Honest g m := h.leads

end Affirms

namespace Reads

theorem value {a : α} : Reads g (pure a) := rfl

theorem bind {m : Edit α} {f : α → Edit β} (hm : Reads g m) (hf : ∀ a, Reads g (f a)) : Reads g (m >>= f) := by
  unfold Reads
  rw [Leads.bind_iff]
  refine Leads.mono hm ?_
  rintro a _ rfl
  exact hf a

theorem reading {f : FlowGraph → Edit β} (hf : Reads g (f g)) : Reads g ((get : Edit FlowGraph) >>= f) := hf

theorem lifted {x : Except Fault α} : Reads g (liftM x : Edit α) := by
  unfold Reads
  rw [Leads.lift_iff]
  exact .of_ok fun _ _ => rfl

theorem ite {c : Prop} [Decidable c] {m m' : Edit α} (hm : Reads g m) (hm' : Reads g m') :
    Reads g (if c then m else m') := by
  split
  · exact hm
  · exact hm'

theorem mapM {xs : List α} {f : α → Edit β} (hf : ∀ x, Reads g (f x)) : Reads g (xs.mapM f) := by
  induction xs with
  | nil => exact value
  | cons x xs ih =>
    rw [List.mapM_cons]
    exact bind (hf x) fun _ => bind ih fun _ => value

end Reads

namespace Honest

variable {m m' : Edit Bool}

theorem no : Honest g (pure false) := fun _ => rfl

theorem bind {m : Edit α} {f : α → Edit Bool} (hm : Reads g m) (hf : ∀ a, Honest g (f a)) : Honest g (m >>= f) := by
  unfold Honest
  rw [Leads.bind_iff]
  refine Leads.mono hm ?_
  rintro a _ rfl
  exact hf a

theorem reading {f : FlowGraph → Edit Bool} (hf : Honest g (f g)) : Honest g ((get : Edit FlowGraph) >>= f) := hf

theorem lifted {x : Except Fault α} {f : α → Edit Bool} (hf : ∀ a, Honest g (f a)) : Honest g (liftM x >>= f) :=
  bind .lifted hf

theorem ite {c : Prop} [Decidable c] (hm : Honest g m) (hm' : Honest g m') : Honest g (if c then m else m') := by
  split
  · exact hm
  · exact hm'

theorem after {f : Bool → Edit Bool} (hm : Honest g m) (hyes : Affirms (f true)) (hno : Honest g (f false)) :
    Honest g (m >>= f) := by
  unfold Honest
  rw [Leads.bind_iff]
  refine Leads.mono hm fun changed g' hg' => ?_
  cases changed with
  | true => exact hyes.leads
  | false =>
    obtain rfl := hg' rfl
    exact hno

/-- An edit that goes on only where a first one told of a change. -/
theorem onlyIf (hm : Honest g m) (hm' : Affirms m') :
    Honest g (m >>= fun changed => if !changed then pure false else m') :=
  after hm hm' no

theorem attemptIf {condition : Bool} (hm : Honest g m) : Honest g (Midend.attemptIf condition m) := ite hm no

theorem firstChange {ms : List (Edit Bool)} (hms : ∀ m ∈ ms, Honest g m) : Honest g (Midend.firstChange ms) := by
  induction ms with
  | nil => exact no
  | cons m ms ih =>
    rw [List.forall_mem_cons] at hms
    exact after hms.1 .yes (ih hms.2)

theorem anyChange {xs : List α} {f : α → Edit Bool} (hf : ∀ x ∈ xs, Honest g (f x)) :
    Honest g (Midend.anyChange xs f) :=
  Leads.anyChange_still (r := fun g g' => g' = g) rfl (fun _ _ _ h h' => h'.trans h) fun x hx _ hg' => hg' ▸ hf x hx

theorem visitInsts {visit : InstId → Edit Bool} (hvisit : ∀ i, Honest g (visit i)) :
    Honest g (Midend.visitInsts visit) :=
  reading (anyChange fun _ _ => reading (anyChange fun i _ => reading (ite (hvisit i) no)))

end Honest

end Midend.Reports

import Midend.Proofs.Graph.Places

/-! # Edits that carry a value along

Some stages carry a value of their own along with the graph. What every step of such a computation keeps, of that value
and of the graph, the whole computation keeps.
-/

namespace Midend

variable {α β σ : Type} {P : σ → FlowGraph → Prop} {m m' : StateT σ Edit α}

namespace Keeps

variable {inv : FlowGraph → Prop}

theorem mapM {xs : List α} {f : α → Edit β} (hf : ∀ a ∈ xs, Keeps inv (f a)) : Keeps inv (xs.mapM f) := by
  induction xs with
  | nil => exact .value _
  | cons x xs ih =>
    rw [List.forall_mem_cons] at hf
    rw [List.mapM_cons]
    exact .andThen hf.1 fun _ => .andThen (ih hf.2) fun _ => .value _

theorem foldlM {xs : List β} {f : α → β → Edit α} {a : α} (hf : ∀ a, ∀ x ∈ xs, Keeps inv (f a x)) :
    Keeps inv (xs.foldlM f a) := by
  induction xs generalizing a with
  | nil => exact .value a
  | cons x xs ih =>
    rw [List.foldlM_cons]
    exact .andThen (hf a x List.mem_cons_self) fun b => ih fun a y hy => hf a y (List.mem_cons_of_mem x hy)

theorem filterM {xs : List α} {f : α → Edit Bool} (hf : ∀ a ∈ xs, Keeps inv (f a)) : Keeps inv (xs.filterM f) :=
  fun _ hg => Leads.filterM_of_forall inv hg hf

end Keeps

/-- What holds before the computation holds behind it, unless it stops with a fault. -/
def Upholds (P : σ → FlowGraph → Prop) (m : StateT σ Edit α) : Prop :=
  ∀ s g, P s g → Leads True g (m.run s) fun r g' => P r.2 g'

namespace Upholds

theorem threads {s : σ} {g : FlowGraph} (hm : Upholds P m) (h : P s g) : Threads True g s m fun _ s' g' => P s' g' :=
  hm s g h

theorem value {a : α} : Upholds P (pure a) := fun _ _ h => h

theorem bind {f : α → StateT σ Edit β} (hm : Upholds P m) (hf : ∀ a, Upholds P (f a)) : Upholds P (m >>= f) := by
  intro s g h
  rw [StateT.run_bind, Leads.bind_iff]
  exact (hm s g h).mono fun r g' h' => hf r.1 r.2 g' h'

theorem ite {c : Prop} [Decidable c] (hm : c → Upholds P m) (hm' : ¬ c → Upholds P m') :
    Upholds P (if c then m else m') := by
  split
  case isTrue h => exact hm h
  case isFalse h => exact hm' h

/-- Looking at the graph, or at what is carried along. -/
theorem graph {f : FlowGraph → StateT σ Edit β} (hf : ∀ g, Upholds P (f g)) :
    Upholds P ((getThe FlowGraph : StateT σ Edit FlowGraph) >>= f) := fun s g h => hf g s g h

theorem state {f : σ → StateT σ Edit β} (hf : ∀ s, Upholds P (f s)) : Upholds P ((get : StateT σ Edit σ) >>= f) :=
  fun s g h => hf s s g h

theorem read {x : Except Fault α} : Upholds P (liftM x : StateT σ Edit α) := by
  intro s g h
  cases x with
  | ok a => exact h
  | error e => trivial

theorem fault {e : Fault} : Upholds P (throwThe Fault e : StateT σ Edit α) := fun _ _ _ => trivial

theorem edit {m : Edit α} (hm : ∀ s, Keeps (P s) m) : Upholds P (liftM m : StateT σ Edit α) := by
  intro s g h
  show Leads True g (StateT.run (StateT.lift m) s) _
  rw [StateT.run_lift, Leads.bind_iff]
  exact hm s g h

theorem note {f : σ → σ} (hf : ∀ s g, P s g → P (f s) g) : Upholds P (modify f : StateT σ Edit PUnit) := fun s g h =>
    hf s g h

theorem ignoring (hm : Upholds P m) : Upholds P (discard m) := by
  show Upholds P (_ <$> m)
  rw [map_eq_pure_bind]
  exact bind hm fun _ => value

theorem each {xs : List β} {f : β → StateT σ Edit PUnit} (hf : ∀ x ∈ xs, Upholds P (f x)) : Upholds P (xs.forM f) := by
  induction xs with
  | nil => exact value
  | cons x xs ih =>
    rw [List.forall_mem_cons] at hf
    exact bind hf.1 fun _ => ih hf.2

theorem foldlM {xs : List β} {f : α → β → StateT σ Edit α} {a : α} (hf : ∀ a, ∀ x ∈ xs, Upholds P (f a x)) :
    Upholds P (xs.foldlM f a) := by
  induction xs generalizing a with
  | nil => exact value
  | cons x xs ih =>
    rw [List.foldlM_cons]
    exact bind (hf a x List.mem_cons_self) fun b => ih fun a y hy => hf a y (List.mem_cons_of_mem x hy)

theorem mapM {xs : List α} {f : α → StateT σ Edit β} (hf : ∀ x ∈ xs, Upholds P (f x)) : Upholds P (xs.mapM f) := by
  induction xs with
  | nil => exact value
  | cons x xs ih =>
    rw [List.forall_mem_cons] at hf
    rw [List.mapM_cons]
    exact bind hf.1 fun _ => bind (ih hf.2) fun _ => value

end Upholds

end Midend

import Mathlib.Data.List.Forall2
import Midend.Consistency

/-! # Reading without a fault

When a computation that reads a graph has a value, and which one.
-/

namespace Midend

variable {α β : Type}

theorem InstId.index_inj {i j : InstId} : i.index = j.index ↔ i = j := by cases i; cases j; simp

theorem BlockId.index_inj {a b : BlockId} : a.index = b.index ↔ a = b := by cases a; cases b; simp

theorem bind_eq_ok {x : Except Fault α} {f : α → Except Fault β} {b : β} :
    (x >>= f) = .ok b ↔ ∃ a, x = .ok a ∧ f a = .ok b := by
  cases x <;> simp [bind, Except.bind]

theorem pure_eq_ok {a b : α} : (pure a : Except Fault α) = .ok b ↔ a = b := by
  simp [pure, Except.pure]

theorem toOption_eq_some_iff {x : Except Fault α} {a : α} : x.toOption = some a ↔ x = .ok a := by
  cases x <;> simp [Except.toOption]

theorem orFault_eq_ok {x : Option α} {e : Fault} {a : α} : orFault x e = .ok a ↔ x = some a := by
  cases x <;> simp [orFault]

theorem ite_eq_ok {c : Prop} [Decidable c] {x y : Except Fault α} {a : α} :
    (if c then x else y) = .ok a ↔ (c ∧ x = .ok a) ∨ (¬ c ∧ y = .ok a) := by
  by_cases h : c <;> simp [h]

theorem forall₂_mem_left {r : α → β → Prop} {xs : List α} {ys : List β} (h : List.Forall₂ r xs ys) {x : α}
    (hx : x ∈ xs) : ∃ y ∈ ys, r x y := by
  induction h with
  | nil => simp at hx
  | cons hr _ ih =>
    obtain rfl | hx := List.mem_cons.mp hx
    · exact ⟨_, List.mem_cons_self, hr⟩
    · obtain ⟨y, hy, hxy⟩ := ih hx
      exact ⟨y, List.mem_cons_of_mem _ hy, hxy⟩

theorem forall₂_mem_right {r : α → β → Prop} {xs : List α} {ys : List β} (h : List.Forall₂ r xs ys) {y : β}
    (hy : y ∈ ys) : ∃ x ∈ xs, r x y := forall₂_mem_left h.flip hy

theorem mapM_eq_ok {f : α → Except Fault β} {xs : List α} {ys : List β} :
    xs.mapM f = .ok ys ↔ List.Forall₂ (fun x y => f x = .ok y) xs ys := by
  induction xs generalizing ys with
  | nil => rw [List.mapM_nil, pure_eq_ok, List.forall₂_nil_left_iff, eq_comm]
  | cons x xs ih =>
    simp only [List.mapM_cons, bind_eq_ok, pure_eq_ok, ih, List.forall₂_cons_left_iff]
    constructor
    · rintro ⟨y, hy, ys', hys, rfl⟩
      exact ⟨y, ys', hy, hys, rfl⟩
    · rintro ⟨y, ys', hy, hys, rfl⟩
      exact ⟨y, hy, ys', hys, rfl⟩

theorem exists_mapM {f : α → Except Fault β} {xs : List α} (h : ∀ x ∈ xs, ∃ y, f x = .ok y) :
    ∃ ys, xs.mapM f = .ok ys := by
  simp only [mapM_eq_ok]
  induction xs with
  | nil => exact ⟨[], .nil⟩
  | cons x xs ih =>
    obtain ⟨y, hy⟩ := h x List.mem_cons_self
    obtain ⟨ys, hys⟩ := ih fun x hx => h x (List.mem_cons_of_mem _ hx)
    exact ⟨y :: ys, .cons hy hys⟩

theorem findings_eq_nil_iff {f : α → Except Fault (List β)} {xs : List α} :
    (do return (← xs.mapM f).flatten : Except Fault (List β)) = .ok [] ↔ ∀ x ∈ xs, f x = .ok [] := by
  simp only [bind_eq_ok, mapM_eq_ok, pure_eq_ok]
  induction xs with
  | nil => simp
  | cons x xs ih =>
    simp only [List.forall₂_cons_left_iff, List.mem_cons, forall_eq_or_imp, ← ih]
    constructor
    · rintro ⟨_, ⟨ys, yss, hx, hxs, rfl⟩, hnil⟩
      simp only [List.flatten_cons, List.append_eq_nil_iff] at hnil
      exact ⟨hnil.1 ▸ hx, yss, hxs, hnil.2⟩
    · rintro ⟨hx, yss, hxs, hnil⟩
      exact ⟨_, ⟨[], yss, hx, hxs, rfl⟩, by simpa using hnil⟩

theorem filterAuxM_eq_ok {f : α → Except Fault Bool} {xs acc ys : List α} :
    xs.filterAuxM f acc = .ok ys ↔ (∀ x ∈ xs, ∃ b, f x = .ok b) ∧
      ys = (xs.filter fun x => (f x).toOption = some true).reverse ++ acc := by
  induction xs generalizing acc with
  | nil => simp [List.filterAuxM, pure, Except.pure, eq_comm]
  | cons x xs ih =>
    simp only [List.filterAuxM, bind_eq_ok, ih, List.mem_cons, forall_eq_or_imp]
    cases hx : f x with
    | error e => simp
    | ok b => cases b <;> simp [hx, Except.toOption]

theorem filterM_eq_ok {f : α → Except Fault Bool} {xs ys : List α} :
    xs.filterM f = .ok ys ↔
      (∀ x ∈ xs, ∃ b, f x = .ok b) ∧ ys = xs.filter fun x => (f x).toOption = some true := by
  simp only [List.filterM, bind_eq_ok, pure_eq_ok, filterAuxM_eq_ok, List.append_nil]
  constructor
  · rintro ⟨zs, ⟨hall, rfl⟩, rfl⟩
    exact ⟨hall, List.reverse_reverse _⟩
  · rintro ⟨hall, rfl⟩
    exact ⟨_, ⟨hall, rfl⟩, List.reverse_reverse _⟩

theorem allM_eq_true {f : α → Except Fault Bool} {xs : List α} (h : xs.allM f = .ok true) :
    ∀ x ∈ xs, f x = .ok true := by
  induction xs with
  | nil => simp
  | cons x xs ih =>
    rw [List.allM] at h
    obtain ⟨r, hr, h⟩ := bind_eq_ok.mp h
    cases r with
    | false => cases h
    | true => exact List.forall_mem_cons.mpr ⟨hr, ih h⟩

theorem anyM_eq_false {f : α → Except Fault Bool} {xs : List α} (h : xs.anyM f = .ok false) :
    ∀ x ∈ xs, f x = .ok false := by
  induction xs with
  | nil => simp
  | cons x xs ih =>
    rw [List.anyM] at h
    obtain ⟨r, hr, h⟩ := bind_eq_ok.mp h
    cases r with
    | false => exact List.forall_mem_cons.mpr ⟨hr, ih h⟩
    | true => cases h

/-! ## Graphs -/

namespace FlowGraph

variable {g : FlowGraph}

theorem node_eq_ok {i : InstId} {n : Node} : g.node i = .ok n ↔ g.nodes[i.index]? = some n := orFault_eq_ok

theorem block_eq_ok {b : BlockId} {k : Block} : g.block b = .ok k ↔ g.blocks[b.index]? = some k :=
  orFault_eq_ok

theorem inst_eq_ok {i : InstId} {d : Inst} :
    g.inst i = .ok d ↔ ∃ n, g.nodes[i.index]? = some n ∧ n.inst = d := by
  simp only [inst, bind_eq_ok, node_eq_ok, pure_eq_ok]

theorem opcode_eq_ok {i : InstId} {o : Opcode} :
    g.opcode i = .ok o ↔ ∃ n, g.nodes[i.index]? = some n ∧ n.inst.opcode = o := by
  simp only [opcode, bind_eq_ok, inst_eq_ok, pure_eq_ok]
  grind

theorem range_eq_ok {i : InstId} {r : Option Range} :
    g.range i = .ok r ↔ ∃ n, g.nodes[i.index]? = some n ∧ n.range = r := by
  simp only [range, bind_eq_ok, node_eq_ok, pure_eq_ok]

theorem args_eq_ok {i : InstId} {as : List InstId} :
    g.args i = .ok as ↔ ∃ n, g.nodes[i.index]? = some n ∧ n.inst.args = as := by
  simp only [args, bind_eq_ok, inst_eq_ok, pure_eq_ok]
  grind

theorem arg_eq_ok {i d : InstId} {k : Nat} :
    g.arg i k = .ok d ↔ ∃ n, g.nodes[i.index]? = some n ∧ n.inst.args[k]? = some d := by
  simp only [arg, bind_eq_ok, args_eq_ok, itemAt, orFault_eq_ok]
  grind

theorem isAlivePhi_eq_ok {i : InstId} {a : Bool} :
    g.isAlivePhi i = .ok a ↔ ∃ n, g.nodes[i.index]? = some n ∧ n.inst.isAlivePhi = a := by
  simp only [isAlivePhi, bind_eq_ok, inst_eq_ok, pure_eq_ok]
  grind

theorem inputUses_eq_ok {i : InstId} {us : List Use} :
    g.inputUses i = .ok us ↔ ∃ n, g.nodes[i.index]? = some n ∧ n.inputUses = us := by
  simp only [inputUses, bind_eq_ok, node_eq_ok, pure_eq_ok]

theorem envUses_eq_ok {i : InstId} {us : List Use} :
    g.envUses i = .ok us ↔ ∃ n, g.nodes[i.index]? = some n ∧ n.envUses = us := by
  simp only [envUses, bind_eq_ok, node_eq_ok, pure_eq_ok]

theorem env_eq_ok {i : InstId} {e : Option Environment} :
    g.env i = .ok e ↔ ∃ n, g.nodes[i.index]? = some n ∧ n.env = e := by
  simp only [env, bind_eq_ok, node_eq_ok, pure_eq_ok]

theorem instBlock_eq_ok {i : InstId} {b : Option BlockId} :
    g.instBlock i = .ok b ↔ ∃ n, g.nodes[i.index]? = some n ∧ n.block = b := by
  simp only [instBlock, bind_eq_ok, node_eq_ok, pure_eq_ok]

theorem preds_eq_ok {b : BlockId} {ps : List BlockId} :
    g.preds b = .ok ps ↔ ∃ k, g.blocks[b.index]? = some k ∧ k.preds = ps := by
  simp only [preds, bind_eq_ok, block_eq_ok, pure_eq_ok]

theorem phis_eq_ok {b : BlockId} {ps : List InstId} :
    g.phis b = .ok ps ↔ ∃ k, g.blocks[b.index]? = some k ∧ k.phis = ps := by
  simp only [phis, bind_eq_ok, block_eq_ok, pure_eq_ok]

/-- Dominance between instructions, by the blocks that they are in. -/
theorem instDominates_eq {i j : InstId} {n m : Node} {a b : BlockId} (hn : g.nodes[i.index]? = some n)
    (hm : g.nodes[j.index]? = some m) (ha : n.block = some a) (hb : m.block = some b) :
    g.instDominates i j =
      if a = graphEntry ∨ n.inst.opcode = .phi then if i = j then .ok false else g.dominates a b
      else if a ≠ b then g.dominates a b
      else if m.inst.opcode = .phi then .ok false
      else do return decide (j ∈ (← g.layout.after i)) := by
  unfold instDominates
  rw [node_eq_ok.mpr hn, node_eq_ok.mpr hm, opcode_eq_ok.mpr ⟨n, hn, rfl⟩, opcode_eq_ok.mpr ⟨m, hm, rfl⟩]
  simp only [bind, Except.bind, ha, hb, Bool.or_eq_true, decide_eq_true_eq, beq_iff_eq]
  rfl

end FlowGraph

end Midend

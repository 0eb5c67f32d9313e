import Midend.Proofs.Flow.Current
import Midend.Proofs.Flow.Loops
import Midend.Proofs.Ssa.Frames

/-! # The expression stack

Which instructions have their values on the expression stack, as far as the code tells without being renamed. The
frames of renaming hold the values of just these instructions above the variables.
-/

namespace Midend

open Midend.Flow

def Node.leavesValue (n : Node) : Bool := n.inst.opcode == .pushArgument || n.inst.isDefinition && n.isUsed

/-- The instruction `i` takes its operands off the stack, the inputs first, and leaves its value there. The top is at
the end. -/
def FlowGraph.Moves (r : FlowGraph) (i : InstId) (stack stack' : List InstId) : Prop :=
  ∃ n base, r.nodes[i.index]? = some n ∧ stack = base ++ n.inst.arguments ++ n.inst.args ∧
    stack' = base ++ if n.leavesValue then [i] else []

/-- The instructions take the stack from one end to the other. -/
inductive FlowGraph.Executes (r : FlowGraph) : List InstId → List InstId → List InstId → Prop where
  | nil (stack : List InstId) : Executes r [] stack stack
  | cons {i : InstId} {is stack stack' stack'' : List InstId} (hmove : r.Moves i stack stack')
      (hrest : Executes r is stack' stack'') : Executes r (i :: is) stack stack''

/-- The stack that an instruction leaves, if its operands are on top. -/
def FlowGraph.move? (r : FlowGraph) (i : InstId) (stack : List InstId) : Option (List InstId) :=
  (r.nodes[i.index]?).bind fun n =>
    if n.inst.arguments ++ n.inst.args <:+ stack then
      some (stack.take (stack.length - (n.inst.arguments ++ n.inst.args).length) ++ if n.leavesValue then [i] else [])
    else none

/-- The last block before `b` that every path to it goes through. -/
def FlowGraph.ImmediatelyDominates (r : FlowGraph) (d b : BlockId) : Prop :=
  d ≠ b ∧ r.Dominates d b ∧ ∀ c, c ≠ b → r.Dominates c b → r.Dominates c d

/-- The stack that a block starts with is the one at the end of its dominator. -/
inductive FlowGraph.StackAt (r : FlowGraph) : BlockId → List InstId → Prop where
  | entry : StackAt r FlowGraph.normalEntry []
  | child {d b : BlockId} {stack stack' : List InstId} (hb : r.Reachable b) (hd : r.ImmediatelyDominates d b)
      (hstack : StackAt r d stack) (hrun : r.Executes (r.insts d) stack stack') : StackAt r b stack'

namespace FlowGraph

variable {r : FlowGraph} {b c d : BlockId} {is js stack stack' : List InstId} {i v : InstId}

theorem move?_eq_some : r.move? i stack = some stack' ↔ r.Moves i stack stack' := by
  unfold move? Moves
  rw [Option.bind_eq_some_iff]
  refine exists_congr fun n => ?_
  constructor
  · rintro ⟨hn, h⟩
    split at h
    case isTrue hsuffix =>
      obtain ⟨base, rfl⟩ := hsuffix
      refine ⟨base, hn, (List.append_assoc _ _ _).symm, ?_⟩
      rw [← Option.some_inj.mp h]
      simp
    case isFalse => cases h
  · rintro ⟨base, hn, rfl, rfl⟩
    refine ⟨hn, ?_⟩
    rw [List.append_assoc, if_pos (List.suffix_append _ _)]
    simp

theorem foldlM_move?_eq_some : is.foldlM (fun stack i => r.move? i stack) stack = some stack' ↔
    r.Executes is stack stack' := by
  induction is generalizing stack with
  | nil =>
    constructor
    · rintro ⟨⟩
      exact .nil _
    · rintro ⟨⟩
      rfl
  | cons i is ih =>
    rw [List.foldlM_cons, Option.bind_eq_bind, Option.bind_eq_some_iff]
    simp only [move?_eq_some]
    constructor
    · rintro ⟨mid, hmove, hrest⟩
      exact .cons hmove (ih.mp hrest)
    · rintro (_ | ⟨hmove, hrest⟩)
      exact ⟨_, hmove, ih.mpr hrest⟩

theorem Executes.append : r.Executes (is ++ js) stack stack' ↔ ∃ mid, r.Executes is stack mid ∧
    r.Executes js mid stack' := by
  induction is generalizing stack with
  | nil =>
    constructor
    · exact fun h => ⟨stack, .nil stack, h⟩
    · rintro ⟨mid, ⟨⟩, h⟩
      exact h
  | cons i is ih =>
    constructor
    · rintro (_ | ⟨hmove, hrest⟩)
      obtain ⟨mid, h, h'⟩ := ih.mp hrest
      exact ⟨mid, .cons hmove h, h'⟩
    · rintro ⟨mid, _ | ⟨hmove, hrest⟩, h'⟩
      exact .cons hmove (ih.mpr ⟨mid, hrest, h'⟩)

theorem Executes.exists_move (h : r.Executes is stack stack') (hi : i ∈ is) : ∃ front back mid mid',
    is = front ++ i :: back ∧ r.Executes front stack mid ∧ r.Moves i mid mid' := by
  obtain ⟨front, back, rfl⟩ := List.append_of_mem hi
  obtain ⟨mid, hfront, hback⟩ := append.mp h
  obtain _ | ⟨hmove, -⟩ := hback
  exact ⟨front, back, mid, _, rfl, hfront, hmove⟩

theorem Executes.count_le (h : r.Executes is stack stack') (v : InstId) :
    stack'.count v ≤ stack.count v + is.count v := by
  induction h with
  | nil => exact Nat.le_add_right _ _
  | @cons i is _ _ _ hmove _ ih =>
    obtain ⟨n, base, -, rfl, rfl⟩ := hmove
    rw [List.count_append] at ih
    rw [List.count_append, List.count_append, List.count_cons]
    have hleft : (if n.leavesValue then [i] else []).count v ≤ [i].count v := by
      split
      · exact Nat.le_refl _
      · exact Nat.zero_le _
    rw [List.count_singleton] at hleft
    omega

theorem Executes.mem (h : r.Executes is stack stack') (hv : v ∈ stack') : v ∈ stack ∨ v ∈ is := by
  have hcount := h.count_le v
  have hpos := List.count_pos_iff.mpr hv
  rw [← List.count_pos_iff, ← List.count_pos_iff (l := is)]
  omega

theorem Executes.exists_below (h : r.Executes is stack stack') :
    ∃ below above, stack' = below ++ above ∧ below <+: stack ∧ ∀ v ∈ above, v ∈ is := by
  induction h with
  | nil stack => exact ⟨stack, [], by simp, List.prefix_rfl, by simp⟩
  | @cons i is stack stack' stack'' hmove _ ih =>
    obtain ⟨n, base, -, rfl, rfl⟩ := hmove
    obtain ⟨below, above, rfl, hbelow, habove⟩ := ih
    have hmem : ∀ v ∈ above, v ∈ i :: is := fun v hv => List.mem_cons_of_mem i (habove v hv)
    have hkept : below <+: base ∨ below = base ++ [i] := by
      split at hbelow
      · exact (List.prefix_concat_iff.mp hbelow).symm
      · exact .inl (by simpa using hbelow)
    rw [List.append_assoc]
    obtain hbelow | rfl := hkept
    · exact ⟨below, above, rfl, hbelow.trans (List.prefix_append _ _), hmem⟩
    · exact ⟨base, i :: above, by simp, List.prefix_append _ _, List.forall_mem_cons.mpr ⟨List.mem_cons_self, hmem⟩⟩

theorem ImmediatelyDominates.unique (hb : r.Reachable b) (hc : r.ImmediatelyDominates c b)
    (hd : r.ImmediatelyDominates d b) : c = d :=
  (hd.2.2 c hc.1 hc.2.1).antisymm (hc.2.2 d hd.1 hd.2.1) (hd.2.1.reachable hb)

theorem ImmediatelyDominates.of_edge (hedge : r.Edge d b) (honly : ∀ a, r.Edge a b → a = d) (hne : d ≠ b)
    (hentry : b ≠ graphEntry) : r.ImmediatelyDominates d b := by
  refine ⟨hne, ?_, fun c hc hdom => hdom.of_edge hc hedge⟩
  rintro path hpath rfl
  cases hpath with
  | nil => exact absurd rfl hentry
  | @cons path b hstep _ =>
    rw [List.headD_cons] at honly
    rw [← honly _ hstep]
    cases path <;> simp

theorem StackAt.ne_graphEntry (h : r.StackAt b stack) : b ≠ graphEntry := by
  cases h with
  | entry => decide
  | child _ hd =>
    rintro rfl
    exact hd.1 (dominates_graphEntry_iff.mp hd.2.1)

theorem StackAt.exists_above (h : r.StackAt b stack) (hv : v ∈ stack) :
    ∃ c, c ≠ b ∧ r.Dominates c b ∧ v ∈ r.insts c := by
  induction h with
  | entry => cases hv
  | @child d b _ _ hb hd hstack hrun ih =>
    obtain hv | hv := hrun.mem hv
    · obtain ⟨c, hne, hcd, hc⟩ := ih hv
      refine ⟨c, ?_, hcd.trans hd.2.1, hc⟩
      rintro rfl
      exact hd.1 (hd.2.1.antisymm hcd hb)
    · exact ⟨d, hd.1, hd.2.1, hv⟩

theorem StackAt.reachable (h : r.StackAt b stack) : r.Reachable b := by
  cases h with
  | entry => exact .single List.mem_cons_self
  | child hb => exact hb

end FlowGraph

namespace Ssa

variable {r g₀ g : FlowGraph} {t : Tour} {s : Names} {i : InstId} {b : BlockId} {f f' init : Frame}
  {is stack stack' : List InstId}

/-- Above the variables the frame holds what the instructions on the stack stand for. -/
structure Stands (r : FlowGraph) (s : Names) (stack : List InstId) (f : Frame) : Prop where
  room : r.parameterCount + r.localCount ≤ f.length
  values : List.Forall₂ (fun a v => resolve r s a = some v) stack (f.drop (r.parameterCount + r.localCount))

theorem forall₂_of_append {α β : Type} {R : α → β → Prop} {as xs : List α} {bs ys : List β}
    (h : List.Forall₂ R (as ++ xs) (bs ++ ys)) (hlen : xs.length = ys.length) :
    List.Forall₂ R as bs ∧ List.Forall₂ R xs ys := by
  have hlen' : as.length = bs.length := by
    have := h.length_eq
    simp only [List.length_append] at this
    omega
  have htake := List.forall₂_take_append _ _ _ h
  have hdrop := List.forall₂_drop_append _ _ _ h
  rw [← hlen', List.take_left] at htake
  rw [← hlen', List.drop_left] at hdrop
  exact ⟨htake, hdrop⟩

theorem Stands.operands {xs : List InstId} (h : Stands r s (stack ++ xs) f) :
    ∃ rest vs, f = rest ++ vs ∧ Stands r s stack rest ∧ List.Forall₂ (fun a v => resolve r s a = some v) xs vs := by
  have hlen : stack.length + xs.length + (r.parameterCount + r.localCount) = f.length := by
    have hvalues := h.values.length_eq
    have hroom := h.room
    rw [List.length_append, List.length_drop] at hvalues
    omega
  have hsplit : f = f.take (f.length - xs.length) ++ f.drop (f.length - xs.length) := (List.take_append_drop _ _).symm
  have hroom : r.parameterCount + r.localCount ≤ (f.take (f.length - xs.length)).length := by
    rw [List.length_take]
    omega
  have hvalues := h.values
  rw [hsplit, List.drop_append_of_le_length hroom] at hvalues
  obtain ⟨hbase, htop⟩ := forall₂_of_append hvalues (by rw [List.length_drop]; omega)
  exact ⟨_, _, hsplit, ⟨hroom, hbase⟩, htop⟩

theorem Stands.concat (h : Stands r s stack f) {v : InstId} (hv : resolve r s i = some v) :
    Stands r s (stack ++ [i]) (f ++ [v]) where
  room := by
    rw [List.length_append]
    exact Nat.le_add_right_of_le h.room
  values := by
    rw [List.drop_append_of_le_length h.room]
    exact List.rel_append h.values (.cons hv .nil)

theorem Stands.set (h : Stands r s stack f) {slot : Nat} (hslot : slot < r.parameterCount + r.localCount) (v : InstId) :
    Stands r s stack (f.set slot v) where
  room := by
    rw [List.length_set]
    exact h.room
  values := by
    rw [List.drop_set_of_lt hslot]
    exact h.values

theorem LeavesLocal.stands {n : Node} {v : InstId} (h : LeavesLocal s g i n v f f') (hlocal : isLocalIn r i = true)
    (hf : Stands r s stack f) : Stands r s (stack ++ if n.isUsed then [i] else []) f' := by
  rw [h.frame]
  split
  · refine hf.concat ?_
    rw [resolve, if_pos hlocal, h.resolved]
  · simpa using hf

theorem Step.stands (h : Base r t g₀) (hstep : Step r g₀ s g i f f') (hmove : r.Moves i stack stack')
    (hf : Stands r s stack f) : Stands r s stack' f' := by
  obtain ⟨n, as, rest, hstep⟩ := hstep
  obtain ⟨m, base, hm, rfl, rfl⟩ := hmove
  obtain rfl : n = m := by simpa [hstep.built] using hm
  obtain ⟨rest', vs, hrest, hbase, hvs⟩ := (List.append_assoc _ _ _ ▸ hf : Stands r s (base ++ _) f).operands
  have hlen : (n.inst.arguments ++ as).length = vs.length := by
    rw [← hvs.length_eq, List.length_append, List.length_append, hstep.inputs.length_eq]
  obtain ⟨rfl, -⟩ : rest = rest' ∧ n.inst.arguments ++ as = vs := by
    rw [hstep.frame, List.append_assoc] at hrest
    exact List.append_inj' hrest hlen
  have hleaves := hstep.leaves
  unfold Leaves at hleaves
  split at hleaves
  case h_1 slot _ hinst =>
    obtain ⟨hslot, v, -, hleft⟩ := hleaves
    have hlocal : isLocalIn r i = true := by rw [isLocalIn_eq hstep.built, hinst]; rfl
    have hvalue : n.leavesValue = n.isUsed := by rw [Node.leavesValue, hinst]; rfl
    rw [hvalue]
    exact hleft.stands hlocal (hbase.set hslot v)
  case h_2 slot hinst =>
    obtain ⟨-, v, -, -, hleft⟩ := hleaves
    have hlocal : isLocalIn r i = true := by rw [isLocalIn_eq hstep.built, hinst]; rfl
    have hvalue : n.leavesValue = n.isUsed := by rw [Node.leavesValue, hinst]; rfl
    rw [hvalue]
    exact hleft.stands hlocal hbase
  case h_3 hstore hload =>
    have hvalue : n.leavesValue = true ↔ n.inst.opcode = .pushArgument ∨
      (n.inst.isDefinition = true ∧ n.isUsed = true) := by
      simp [Node.leavesValue]
    rw [hleaves]
    simp only [hvalue]
    split
    · refine hbase.concat ?_
      rw [resolve, if_neg]
      rw [isLocalIn_eq hstep.built]
      intro hlocal
      obtain ⟨slot, hinst⟩ | ⟨slot, v, hinst⟩ := Inst.local_cases (h.raw.admits i n hstep.built).fits hlocal
      · exact hload slot hinst
      · exact hstore slot v hinst
    · simpa using hbase

theorem Runs.stands (h : Base r t g₀) (hruns : Runs r g₀ s g is f f') (hrun : r.Executes is stack stack')
    (hf : Stands r s stack f) : Stands r s stack' f' := by
  induction hruns generalizing stack with
  | nil =>
    cases hrun
    exact hf
  | cons hstep _ ih =>
    obtain _ | ⟨hmove, hrest⟩ := hrun
    exact ih hrest (hstep.stands h hmove hf)

theorem Stands.enter (h : Base r t g₀) {phis : List InstId} (hphis : ∀ phi ∈ phis, phi ∈ phisOf g₀ b)
    (hf : Stands r s stack f) : Stands r s stack (enter g₀ phis f) := by
  unfold Ssa.enter
  induction phis generalizing f with
  | nil => exact hf
  | cons phi phis ih =>
    rw [List.forall_mem_cons] at hphis
    exact ih hphis.2 (hf.set (h.phi_of_mem hphis.1).2.2.2.1 phi)

/-- Wherever blocks start from the frames at the ends of their dominators, these hold the stack. -/
theorem stands_of_runs (h : Base r t g₀) (hinit : Starts r g₀ init) (enters leaves : BlockId → Frame → Prop)
    (hentry : ∀ f, enters FlowGraph.normalEntry f → f = init)
    (hbelow : ∀ b d f, b ≠ FlowGraph.normalEntry → t.idom? b = some d → enters b f → leaves d f)
    (hrenamed : ∀ b f', leaves b f' → ∃ f, enters b f ∧ Runs r g₀ s g (r.insts b) (Ssa.enter g₀ (phisOf g₀ b) f) f')
    (hstack : r.StackAt b stack) (hf : enters b f) : Stands r s stack f := by
  induction hstack generalizing f with
  | entry =>
    obtain rfl := hentry f hf
    refine ⟨hinit.length.ge, ?_⟩
    rw [List.drop_eq_nil_of_le hinit.length.le]
    exact .nil
  | @child d b _ _ hb hd hstack hrun ih =>
    have hmem : b ∈ t.preorder := h.touring.mem_preorder_iff_reachable.mpr hb
    have hne : b ≠ FlowGraph.graphEntry := (FlowGraph.StackAt.child hb hd hstack hrun).ne_graphEntry
    obtain ⟨d', hd'⟩ := h.touring.exists_idom? hmem hne
    obtain rfl : d = d' := hd.unique hb (idom?_spec h.touring hd')
    have hnormal : b ≠ FlowGraph.normalEntry := by
      rintro rfl
      rw [h.touring.idom?_normalEntry h.catchEntries, Option.some_inj] at hd'
      exact hstack.ne_graphEntry hd'.symm
    obtain ⟨f₁, hf₁, hruns⟩ := hrenamed d f (hbelow b d f hnormal hd' hf)
    exact hruns.stands h hrun ((ih hf₁).enter h fun _ hphi => hphi)

end Ssa

end Midend

import Midend.Proofs.Graph.Changes
import Midend.Proofs.Graph.Initial

/-! # Names of values

A value is named by its index. Names are never taken back, and each is handed out once.
-/

namespace Midend.FlowGraph

variable {g g' g'' : FlowGraph} {d i : InstId} {n : Node}

/-! ## Names -/

/-- Every index was handed out before, to one instruction. -/
def Numbered (g : FlowGraph) : Prop :=
  ∀ (i : InstId) (n : Node) (k : Nat), g.nodes[i.index]? = some n → n.ssaIndex = some k → k < g.nextSsaIndex ∧
    ∀ (j : InstId) (m : Node), g.nodes[j.index]? = some m → m.ssaIndex = some k → j = i

def Indexed (g : FlowGraph) (d : InstId) : Prop := ∃ n, g.nodes[d.index]? = some n ∧ n.ssaIndex.isSome = true

/-- The instruction has an index, if it produces a value and is no pushed argument. -/
def Named (g : FlowGraph) (d : InstId) : Prop :=
  ∃ n, g.nodes[d.index]? = some n ∧
    (n.inst.isDefinition = true → n.inst.opcode ≠ .pushArgument → n.ssaIndex.isSome = true)

/-- The instruction produces a value that has to have a name. -/
def Valued (g : FlowGraph) (i : InstId) : Prop :=
  ∃ n, g.nodes[i.index]? = some n ∧ n.inst.isDefinition = true ∧ n.inst.opcode ≠ .pushArgument

theorem Indexed.named (h : g.Indexed d) : g.Named d := h.imp fun _ ⟨hn, hindex⟩ => ⟨hn, fun _ _ => hindex⟩

def Ends (g : FlowGraph) (i : InstId) : Prop := ∃ n, g.nodes[i.index]? = some n ∧ n.inst.isTerminator = true

def Plain (g : FlowGraph) (i : InstId) : Prop := ∃ n, g.nodes[i.index]? = some n ∧ n.inst.isTerminator = false

theorem Plain.not_ends (h : g.Plain i) : ¬ g.Ends i := by
  rintro ⟨n', hn', hends⟩
  obtain ⟨n, hn, hplain⟩ := h
  obtain rfl := Option.some_inj.mp (hn.symm.trans hn')
  rw [hplain] at hends
  cases hends

theorem plain_of_isDefinition (hn : g.nodes[i.index]? = some n) (hdef : n.inst.isDefinition = true) : g.Plain i := by
  refine ⟨n, hn, ?_⟩
  by_contra hends
  rw [Bool.not_eq_false] at hends
  rw [Inst.isDefinition_of_isTerminator hends] at hdef
  cases hdef

theorem Valued.plain (h : g.Valued i) : g.Plain i := by
  obtain ⟨n, hn, hdef, -⟩ := h
  exact plain_of_isDefinition hn hdef

/-! ## What goes on being so -/

/-- An instruction goes on producing a value, pushing an argument or ending a block, and keeps its name. -/
structure Continues (n n' : Node) : Prop where
  definition : n'.inst.isDefinition = n.inst.isDefinition
  push : n'.inst.opcode = .pushArgument ↔ n.inst.opcode = .pushArgument
  terminator : n'.inst.isTerminator = n.inst.isTerminator
  indexed : n.ssaIndex.isSome = true → n'.ssaIndex.isSome = true

theorem Continues.of_inst {n' : Node} (hinst : n'.inst = n.inst)
    (hindex : n.ssaIndex.isSome = true → n'.ssaIndex.isSome = true) : Continues n n' :=
    ⟨by rw [hinst], by rw [hinst], by rw [hinst], hindex⟩

theorem Continues.refl (n : Node) : Continues n n := .of_inst rfl id

theorem Continues.trans {n' n'' : Node} (h : Continues n n') (h' : Continues n' n'') : Continues n n'' :=
  ⟨h'.definition.trans h.definition, h'.push.trans h.push, h'.terminator.trans h.terminator, h'.indexed ∘ h.indexed⟩

structure Extends (g g' : FlowGraph) : Prop where
  size : g.nodes.size ≤ g'.nodes.size
  node : ∀ (i : InstId) (n : Node), g.nodes[i.index]? = some n → ∃ n', g'.nodes[i.index]? = some n' ∧ Continues n n'

theorem Extends.refl (g : FlowGraph) : g.Extends g := ⟨Nat.le_refl _, fun _ n hn => ⟨n, hn, .refl n⟩⟩

theorem Extends.trans (h : g.Extends g') (h' : g'.Extends g'') : g.Extends g'' where
  size := Nat.le_trans h.size h'.size
  node i n hn := by
    obtain ⟨n', hn', hsame⟩ := h.node i n hn
    obtain ⟨n'', hn'', hsame'⟩ := h'.node i n' hn'
    exact ⟨n'', hn'', hsame.trans hsame'⟩

theorem Named.mono (h : g.Named d) (hext : g.Extends g') : g'.Named d := by
  obtain ⟨n, hn, hnamed⟩ := h
  obtain ⟨n', hn', hsame⟩ := hext.node d n hn
  exact ⟨n', hn', fun hd hp => hsame.indexed (hnamed (hsame.definition ▸ hd) fun h => hp (hsame.push.mpr h))⟩

theorem Valued.mono (h : g.Valued d) (hext : g.Extends g') : g'.Valued d := by
  obtain ⟨n, hn, hdef, hpush⟩ := h
  obtain ⟨n', hn', hsame⟩ := hext.node d n hn
  exact ⟨n', hn', hsame.definition.trans hdef, fun h => hpush (hsame.push.mp h)⟩

theorem Ends.mono (h : g.Ends i) (hext : g.Extends g') : g'.Ends i := by
  obtain ⟨n, hn, hends⟩ := h
  obtain ⟨n', hn', hsame⟩ := hext.node i n hn
  exact ⟨n', hn', hsame.terminator.trans hends⟩

theorem Plain.mono (h : g.Plain i) (hext : g.Extends g') : g'.Plain i := by
  obtain ⟨n, hn, hplain⟩ := h
  obtain ⟨n', hn', hsame⟩ := hext.node i n hn
  exact ⟨n', hn', hsame.terminator.trans hplain⟩

/-! ## Names that are handed out -/

theorem Numbered.of_unindexed (h : ∀ (i : InstId) (n : Node), g.nodes[i.index]? = some n → n.ssaIndex = none) :
    g.Numbered := by
  intro i n k hn hk
  rw [h i n hn] at hk
  cases hk

theorem Numbered.changes (h : g.Numbered) (hc : Changes g g' fun _ n n' => n'.ssaIndex = n.ssaIndex)
    (hnext : g'.nextSsaIndex = g.nextSsaIndex) : g'.Numbered := by
  intro i n' k hn' hk
  obtain ⟨n, hn, hsame⟩ := hc.node i n' hn'
  obtain ⟨hlt, hunique⟩ := h i n k hn (hsame ▸ hk)
  refine ⟨hnext ▸ hlt, fun j m' hm' hmk => ?_⟩
  obtain ⟨m, hm, hsame'⟩ := hc.node j m' hm'
  exact hunique j m hm (hsame' ▸ hmk)

/-- A new instruction has a new name, if it has one. -/
theorem Numbered.grown (h : g.Numbered) (hnodes : g'.nodes = g.nodes.push n)
    (hindex : ∀ k, n.ssaIndex = some k → g.nextSsaIndex ≤ k ∧ k < g'.nextSsaIndex)
    (hnext : g.nextSsaIndex ≤ g'.nextSsaIndex) : g'.Numbered := by
  have hnode (j : InstId) (m : Node) (hm : g'.nodes[j.index]? = some m) :
      j = g.nextId ∧ m = n ∨ g.nodes[j.index]? = some m := by
    have hm : (g.withInst n).nodes[j.index]? = some m := by rw [withInst, ← hnodes, hm]
    rw [nodes_withInst] at hm
    split at hm
    case isTrue hj => exact .inl ⟨hj, (Option.some_inj.mp hm).symm⟩
    case isFalse => exact .inr hm
  intro i m k hm hk
  obtain ⟨rfl, rfl⟩ | hm := hnode i m hm
  · obtain ⟨hle, hlt⟩ := hindex k hk
    refine ⟨hlt, fun j m' hm' hk' => ?_⟩
    obtain ⟨rfl, -⟩ | hm' := hnode j m' hm'
    · rfl
    · exact absurd (h j m' k hm' hk').1 (Nat.not_lt.mpr hle)
  · obtain ⟨hlt, hunique⟩ := h i m k hm hk
    refine ⟨Nat.lt_of_lt_of_le hlt hnext, fun j m' hm' hk' => ?_⟩
    obtain ⟨-, rfl⟩ | hm' := hnode j m' hm'
    · exact absurd hlt (Nat.not_lt.mpr (hindex k hk').1)
    · exact hunique j m' hm' hk'

theorem nodes_numbered (i j : InstId) : (g.numbered i).nodes[j.index]? =
    (g.nodes[j.index]?).map fun n => if j = i then { n with ssaIndex := some g.nextSsaIndex } else n :=
  nodes_withNode i j _

theorem Numbered.next (h : g.Numbered) (i : InstId) : (g.numbered i).Numbered := by
  have hnode (j : InstId) (m' : Node) (hm' : (g.numbered i).nodes[j.index]? = some m') :
      ∃ m, g.nodes[j.index]? = some m ∧
      (j = i ∧ m'.ssaIndex = some g.nextSsaIndex ∨ j ≠ i ∧ m'.ssaIndex = m.ssaIndex) := by
    rw [nodes_numbered] at hm'
    obtain ⟨m, hm, rfl⟩ := Option.map_eq_some_iff.mp hm'
    refine ⟨m, hm, ?_⟩
    split
    case isTrue hj => exact .inl ⟨hj, rfl⟩
    case isFalse hj => exact .inr ⟨hj, rfl⟩
  intro j n' k hn' hk
  obtain ⟨n, hn, ⟨rfl, hnew⟩ | ⟨hne, hold⟩⟩ := hnode j n' hn'
  · obtain rfl : g.nextSsaIndex = k := Option.some_inj.mp (hnew.symm.trans hk)
    refine ⟨Nat.lt_succ_self _, fun j' m' hm' hk' => ?_⟩
    obtain ⟨m, hm, ⟨hj', -⟩ | ⟨-, hold⟩⟩ := hnode j' m' hm'
    · exact hj'
    · exact absurd (h j' m _ hm (hold.symm.trans hk')).1 (Nat.lt_irrefl _)
  · obtain ⟨hlt, hunique⟩ := h j n k hn (hold.symm.trans hk)
    refine ⟨Nat.lt_succ_of_lt hlt, fun j' m' hm' hk' => ?_⟩
    obtain ⟨m, hm, ⟨-, hnew⟩ | ⟨-, hold'⟩⟩ := hnode j' m' hm'
    · obtain rfl : g.nextSsaIndex = k := Option.some_inj.mp (hnew.symm.trans hk')
      exact absurd hlt (Nat.lt_irrefl _)
    · exact hunique j' m hm (hold'.symm.trans hk')

theorem indexed_numbered (hi : i.index < g.nodes.size) : (g.numbered i).Indexed i :=
  ⟨{ g.nodes[i.index] with ssaIndex := some g.nextSsaIndex },
    by rw [nodes_numbered, Array.getElem?_eq_getElem hi, Option.map_some, if_pos rfl], rfl⟩

/-! ## Names that are kept -/

structure KeepsNames (g g' : FlowGraph) : Prop where
  indexed : ∀ i, g.Indexed i → g'.Indexed i
  numbered : g.Numbered → g'.Numbered

namespace KeepsNames

theorem refl (g : FlowGraph) : KeepsNames g g := ⟨fun _ => id, id⟩

theorem trans (h : KeepsNames g g') (h' : KeepsNames g' g'') : KeepsNames g g'' :=
  ⟨fun i hi => h'.indexed i (h.indexed i hi), fun hg => h'.numbered (h.numbered hg)⟩

theorem changes (hc : Changes g g' fun _ n n' => n'.ssaIndex = n.ssaIndex) (hnext : g'.nextSsaIndex = g.nextSsaIndex) :
    KeepsNames g g' where
  indexed i := by
    rintro ⟨n, hn, hindex⟩
    obtain ⟨n', hn', hsame⟩ := hc.exists_node hn
    exact ⟨n', hn', hsame ▸ hindex⟩
  numbered hg := hg.changes hc hnext

theorem mapNodes {f : InstId → Node → Node} (hf : ∀ j n, (f j n).ssaIndex = n.ssaIndex) : KeepsNames g (g.mapNodes f) :=
  changes (.mapNodes rfl hf) rfl

theorem withNode {f : Node → Node} (hf : ∀ n, (f n).ssaIndex = n.ssaIndex) : KeepsNames g (g.withNode i f) := by
  refine mapNodes (f := fun j n => if j = i then f n else n) fun j n => ?_
  split
  · exact hf n
  · rfl

theorem next (g : FlowGraph) (i : InstId) : KeepsNames g (g.numbered i) where
  indexed j := by
    rintro ⟨n, hn, hindex⟩
    refine ⟨_, by rw [nodes_numbered, hn]; rfl, ?_⟩
    split
    · rfl
    · exact hindex
  numbered hg := hg.next i

end KeepsNames

end Midend.FlowGraph

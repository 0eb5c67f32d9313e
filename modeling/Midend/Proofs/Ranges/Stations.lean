import Mathlib.Data.Set.Card
import Midend.Proofs.Flow.Loops
import Midend.Proofs.Graph.UseLists
import Midend.Proofs.Ranges.Lookup
import Midend.Proofs.Ranges.Transparency

/-! # Where constraints stand

A constraint holds from some point on, and the instructions behind that point may come to use it. A point at one of
these instructions, or at the start of a block that such a branch leads to, has fewer instructions behind it. So there
is an end to the constraints on constraints.
-/

namespace Midend.Ranges

open FlowGraph

variable {g : FlowGraph} {a b c : BlockId} {d i j : InstId} {p q : Position}

/-! ## Instructions behind a position -/

/-- The instruction is on the list of a discovered block, or a live phi of one. -/
def Discovered (g : FlowGraph) (i : InstId) : Prop := ∃ b ∈ g.reversePostorder, i ∈ g.insts b ∨ i ∈ g.live b

instance : DecidablePred (Discovered g) := fun i =>
  inferInstanceAs (Decidable (∃ b ∈ g.reversePostorder, i ∈ g.insts b ∨ i ∈ g.live b))

theorem mem_order_iff (hg : g.Current) : b ∈ g.reversePostorder ↔ g.Reachable b :=
  List.mem_reverse.trans hg.mem_postorder_iff

/-- An instruction of a block that can be reached comes behind the position on all ways to it. -/
inductive Passed (g : FlowGraph) : Position → InstId → Prop
  | within {b c : BlockId} {i : InstId} : g.Reachable c → i ∈ g.insts c → g.Dominates b c → Passed g (.start b) i
  | below {b c : BlockId} {d i : InstId} : d ∈ g.insts b → g.Reachable c → i ∈ g.insts c → b ≠ c →
      g.Dominates b c → Passed g (.after d) i
  | behind {b : BlockId} {d i : InstId} {front back : List InstId} : g.Reachable b → g.insts b = front ++ d :: back →
      i ∈ back → Passed g (.after d) i

/-- The start of a block that can be reached, or an instruction of one. -/
def Seated (g : FlowGraph) : Position → Prop
  | .start b => g.Reachable b
  | .after i => ∃ b, g.Reachable b ∧ i ∈ g.insts b

/-- How many instructions lie behind a position. -/
noncomputable def rank (g : FlowGraph) (p : Position) : Nat := {i | Passed g p i}.ncard

theorem Passed.exists_home (h : Passed g p i) : ∃ c, g.Reachable c ∧ i ∈ g.insts c := by
  cases h with
  | within hc hi => exact ⟨_, hc, hi⟩
  | below _ hc hi => exact ⟨_, hc, hi⟩
  | behind hb hsplit hi => exact ⟨_, hb, by simp [hsplit, hi]⟩

section

variable (hg : g.Located)

include hg

theorem home_unique (hb : i ∈ g.insts b) (hc : i ∈ g.insts c) : b = c :=
  Option.some_inj.mp ((hg.mem_insts_iff.mp hb).symm.trans (hg.mem_insts_iff.mp hc))

theorem finite_behind (p : Position) : {i | Passed g p i}.Finite := by
  refine ((Set.finite_Iio g.nodes.size).image InstId.mk).subset fun i hi => ?_
  obtain ⟨c, -, hc⟩ := hi.exists_home
  exact ⟨i.index, hg.bounded i c (hg.mem_insts_iff.mp hc), rfl⟩

theorem rank_le (p : Position) : rank g p ≤ g.nodes.size := by
  have hsub : {i | Passed g p i} ⊆ InstId.mk '' Set.Iio g.nodes.size := by
    intro i hi
    obtain ⟨c, -, hc⟩ := hi.exists_home
    exact ⟨i.index, hg.bounded i c (hg.mem_insts_iff.mp hc), rfl⟩
  calc rank g p ≤ (InstId.mk '' Set.Iio g.nodes.size).ncard :=
        Set.ncard_le_ncard hsub ((Set.finite_Iio _).image _)
    _ ≤ (Set.Iio g.nodes.size).ncard := Set.ncard_image_le (Set.finite_Iio _)
    _ = g.nodes.size := by simp [Set.ncard_eq_toFinset_card']

theorem rank_lt (hp : Passed g p i) (hq : ¬ Passed g q i) (hsub : ∀ j, Passed g q j → Passed g p j) :
    rank g q < rank g p :=
  Set.ncard_lt_ncard ⟨hsub, fun h => hq (h hp)⟩ (finite_behind hg p)

/-- Whatever a block dominates lies behind a position, if the instructions of a block that strictly dominates it do. -/
theorem Passed.forward (hp : Passed g p i) (hi : i ∈ g.insts b) (hb : g.Reachable b) (hc : g.Reachable c)
    (hbc : g.Dominates b c) (hne : b ≠ c) (hj : j ∈ g.insts c) : Passed g p j := by
  cases hp with
  | within _ hi' hdom =>
    obtain rfl := home_unique hg hi hi'
    exact .within hc hj (hdom.trans hbc)
  | below hd _ hi' hne' hdom =>
    obtain rfl := home_unique hg hi hi'
    refine .below hd hc hj ?_ (hdom.trans hbc)
    rintro rfl
    exact hne' (hdom.antisymm hbc hb)
  | @behind a _ _ front back _ hsplit hi' =>
    obtain rfl : b = a := home_unique hg hi (by simp [hsplit, hi'])
    exact .below (by simp [hsplit]) hc hj hne hbc

theorem rank_start_lt (hp : Passed g p i) (hi : i ∈ g.insts b) (hb : g.Reachable b) (hbc : g.Dominates b c)
    (hne : b ≠ c) : rank g (.start c) < rank g p := by
  refine rank_lt hg hp ?_ fun j hj => ?_
  · rintro ⟨-, hi', hdom⟩
    obtain rfl := home_unique hg hi hi'
    exact hne (hbc.antisymm hdom (hdom.reachable hb))
  · cases hj with
    | @within _ a _ ha hj hdom =>
      refine hp.forward hg hi hb ha (hbc.trans hdom) ?_ hj
      rintro rfl
      exact hne (hbc.antisymm hdom (hdom.reachable hb))

theorem rank_after_lt (hp : Passed g p i) : rank g (.after i) < rank g p := by
  refine rank_lt hg hp ?_ fun j hj => ?_
  · intro h
    cases h with
    | below hi _ hi' hne => exact hne (home_unique hg hi hi')
    | @behind c _ _ front back _ hsplit hi =>
      have hnodup : (front ++ i :: back).Nodup := hsplit ▸ hg.sound.nodup c
      exact (List.nodup_cons.mp (List.nodup_append.mp hnodup).2.1).1 hi
  · cases hj with
    | below hi hc hj hne hdom =>
      exact hp.forward hg hi (hdom.reachable hc) hc hdom hne hj
    | @behind c _ _ front back hc hsplit hj =>
      have hi : i ∈ g.insts c := by simp [hsplit]
      have hj' : j ∈ g.insts c := by simp [hsplit, hj]
      cases hp with
      | within _ hi' hdom =>
        obtain rfl := home_unique hg hi hi'
        exact .within hc hj' hdom
      | below hd _ hi' hne hdom =>
        obtain rfl := home_unique hg hi hi'
        exact .below hd hc hj' hne hdom
      | @behind c' d _ front' back' hc' hsplit' hi' =>
        obtain rfl : c = c' := home_unique hg hi (by simp [hsplit', hi'])
        refine .behind hc hsplit' ?_
        -- `i` splits the list in one way, and the other position comes before it
        obtain ⟨mid, last, rfl⟩ := List.append_of_mem hi'
        obtain ⟨-, rfl⟩ := hg.sound.split_unique hsplit
          (hsplit'.trans (by simp) : g.insts c = (front' ++ d :: mid) ++ i :: last)
        simp [hj]

end

/-! ## Graphs that do not tangle the analysis -/

/-- An initial definition, a live phi of a discovered block, or an instruction of one that produces a value. -/
def Offers (g : FlowGraph) (d : InstId) : Prop :=
  d ∈ g.initialDefinitions ∨ ∃ b ∈ g.reversePostorder, d ∈ g.live b ∨
    d ∈ g.insts b ∧ ∃ n ∈ g.nodes[d.index]?, n.inst.isDefinition = true

instance : DecidablePred (Offers g) := fun d =>
  inferInstanceAs (Decidable (d ∈ g.initialDefinitions ∨ ∃ b ∈ g.reversePostorder, d ∈ g.live b ∨
    d ∈ g.insts b ∧ ∃ n ∈ g.nodes[d.index]?, n.inst.isDefinition = true))

theorem definitions_offered (hphis : ∀ b ∈ g.reversePostorder, ∃ ps, g.livePhis b = .ok ps)
    (hinsts : ∀ b ∈ g.reversePostorder, ∀ i ∈ g.insts b, i.index < g.nodes.size) :
    ∃ ds, g.definitions = .ok ds ∧ ∀ d, d ∈ ds ↔ Offers g d := by
  have hproduces (i : InstId) (hi : i.index < g.nodes.size) :
      (do return (← g.inst i).isDefinition : Except Fault Bool) = .ok g.nodes[i.index].inst.isDefinition :=
    bind_eq_ok.mpr ⟨_, inst_eq_ok.mpr ⟨_, Array.getElem?_eq_getElem hi, rfl⟩, rfl⟩
  have hblock (b : BlockId) (hb : b ∈ g.reversePostorder) : ∃ ds, (do
      let phis ← g.livePhis b
      let insts ← (g.insts b).filterM fun i => return (← g.inst i).isDefinition
      return phis ++ insts : Except Fault (List InstId)) = .ok ds ∧ ∀ d, d ∈ ds ↔ d ∈ g.live b ∨
        d ∈ g.insts b ∧ ∃ n ∈ g.nodes[d.index]?, n.inst.isDefinition = true := by
    obtain ⟨ps, hps⟩ := hphis b hb
    refine ⟨_, bind_eq_ok.mpr ⟨ps, hps, bind_eq_ok.mpr ⟨_, filterM_eq_ok.mpr ⟨fun i hi =>
      ⟨_, hproduces i (hinsts b hb i hi)⟩, rfl⟩, rfl⟩⟩, fun d => ?_⟩
    rw [List.mem_append, List.mem_filter]
    refine or_congr ⟨fun hd => mem_live_iff.mpr ⟨ps, hps, hd⟩, fun hd => ?_⟩ (and_congr_right fun hd => ?_)
    · obtain ⟨ps', hps', hd⟩ := mem_live_iff.mp hd
      obtain rfl := Except.ok.inj (hps.symm.trans hps')
      exact hd
    · rw [hproduces d (hinsts b hb d hd), Array.getElem?_eq_getElem (hinsts b hb d hd)]
      simp [Except.toOption]
  obtain ⟨dss, hdss⟩ : ∃ dss, g.reversePostorder.mapM (fun b => do
      let phis ← g.livePhis b
      let insts ← (g.insts b).filterM fun i => return (← g.inst i).isDefinition
      return phis ++ insts : BlockId → Except Fault (List InstId)) = .ok dss :=
    exists_mapM fun b hb => (hblock b hb).imp fun _ => And.left
  refine ⟨g.initialDefinitions ++ dss.flatten, bind_eq_ok.mpr ⟨dss, hdss, rfl⟩, fun d => ?_⟩
  rw [List.mem_append, List.mem_flatten]
  refine or_congr_right ⟨?_, ?_⟩
  · rintro ⟨ds, hds, hd⟩
    obtain ⟨b, hb, hrun⟩ := forall₂_mem_right (mapM_eq_ok.mp hdss) hds
    obtain ⟨ds', hds', hiff⟩ := hblock b hb
    obtain rfl := Except.ok.inj (hrun.symm.trans hds')
    exact ⟨b, hb, (hiff d).mp hd⟩
  · rintro ⟨b, hb, hd⟩
    obtain ⟨ds, hds, hrun⟩ := forall₂_mem_left (mapM_eq_ok.mp hdss) hb
    obtain ⟨ds', hds', hiff⟩ := hblock b hb
    obtain rfl := Except.ok.inj (hrun.symm.trans hds')
    exact ⟨ds, hds, (hiff d).mpr hd⟩

/-- The blocks that a branch on small integers leads to. -/
def waysOut : Inst → List BlockId
  | .branch c onTrue onFalse => if c.kind = .strict || c.operands ≠ .smi then [] else [onTrue, onFalse]
  | _ => []

/-- The length of an array that was just made can be read off: that of a call is the last argument that was pushed for
it, and that of a list of values fits into a word. -/
def Measured (g : FlowGraph) : Inst → Prop
  | .staticCall _ arguments result => result = .array → ∀ pushed ∈ arguments.getLast?, ∃ b ∈ g.reversePostorder,
      pushed ∈ g.insts b ∧ ∃ n ∈ g.nodes[pushed.index]?, n.inst.args ≠ []
  | .createArray arguments => (arguments.length : Int) ≤ Word.greatest
  | .constant (.array _ elements) => (elements.length : Int) ≤ Word.greatest
  | _ => True

instance (i : Inst) : Decidable (Measured g i) := by
  unfold Measured
  split <;> infer_instance

instance (p : InstId → Prop) [DecidablePred p] : Decidable (Lists g.inputUses? (fun u => p u.user) g.inputAt) :=
  decidable_of_iff' _ (Lists.iff_bounded (fun _ _ => known_of_map)
    fun _ _ => within_of_bind (v := fun n => n.inst.args))

/-- The orders and the use lists are what they would be if they were found again. Instructions read definitions, nothing
needs a bounds check, and a branch on small integers leads further down in the tree of dominators. -/
@[mk_iff]
structure Tractable (g : FlowGraph) : Prop where
  current : g.Current
  housed : g.Housed
  lists : Lists g.inputUses? (fun u => Discovered g u.user) g.inputAt
  blocks : ∀ n ∈ g.nodes.toList, ∀ b ∈ n.block, b.index < g.blocks.size
  smis : ∀ n ∈ g.nodes.toList, ∀ v ∈ n.inst.constant?.bind Constant.smi?, Word.IsSmi v
  arrays : ∀ n ∈ g.nodes.toList, Measured g n.inst
  inputs : ∀ b ∈ g.reversePostorder, ∀ i ∈ g.insts b ++ g.live b, ∀ n ∈ g.nodes[i.index]?, ∀ a ∈ n.inst.args, Offers g a
  checks : ∀ b ∈ g.reversePostorder, ∀ i ∈ g.insts b, ∀ n ∈ g.nodes[i.index]?, n.inst.opcode = .checkArrayBound →
    n.envUses = []
  ways : ∀ b ∈ g.reversePostorder, ∀ i ∈ g.insts b, ∀ n ∈ g.nodes[i.index]?, ∀ c ∈ waysOut n.inst,
    c ∈ g.reversePostorder ∧ c ≠ b ∧ (g.dominates b c).toOption = some true

instance : Decidable (Tractable g) := decidable_of_iff _ (tractable_iff g).symm

end Midend.Ranges

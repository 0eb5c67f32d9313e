import Midend.Hoisting
import Midend.Proofs.Execution.Traces
import Midend.Proofs.Flow.Loops

/-! # Where instructions are hoisted to

Hoisting takes an instruction up the tree of dominators, to the end of the block that leads into its loop. What its
inputs are comes before that place, and what is behind that place on the way to the old one is in the loop.
-/

namespace Midend

theorem Inst.eq_goto_of_successors {d : Inst} (hop : d.opcode = .goto) (hsucc : d.successors ≠ []) :
    ∃ target, d = .goto target := by
  cases d with
  | goto target => exact ⟨target, rfl⟩
  | branch => cases hop
  | _ => exact absurd rfl hsucc

/-- A load whose result may be another one when memory has been written. -/
def Inst.isMutableLoad : Inst → Bool
  | .loadField _ _ _ immutable _ => !immutable
  | _ => false

theorem Inst.isMutableLoad_mapArgs {d : Inst} {f : Nat → InstId → InstId} :
    (d.mapArgs f).isMutableLoad = d.isMutableLoad := by cases d <;> rfl

theorem Inst.of_isMutableLoad {d : Inst} (h : d.isMutableLoad = true) :
    d.affectedBySideEffect = .ok true ∧ d.successors = [] ∧ d.hasSideEffect = false := by
  cases d with
  | loadField offset cls recognized immutable a =>
    have h : (!immutable) = true := h
    exact ⟨congrArg Except.ok h, rfl, rfl⟩
  | _ => cases h

theorem Inst.of_unaffected {d : Inst} (h : d.affectedBySideEffect = .ok false) :
    d.successors = [] ∧ d.hasSideEffect = false := by
  cases d with
  | unary o => cases o <;> first | exact ⟨rfl, rfl⟩ | cases h
  | compare c => exact ⟨rfl, Except.ok.inj h⟩
  | _ => first | exact ⟨rfl, rfl⟩ | cases h

namespace Layout

variable {l : Layout} {i j x : InstId} {b c p : BlockId} {front : List InstId}

theorem Sound.insts_unplace (hl : l.Sound) (hb : l.home? i = some b) :
    (l.unplace i b).insts c = (l.insts c).erase i := by
  rw [Layout.insts_unplace]
  split
  case isTrue hc => rw [hc]
  case isFalse hc =>
    rw [List.erase_of_not_mem]
    rw [hl.mem_iff, hb, Option.some_inj]
    exact Ne.symm hc

theorem putBefore_last (h : j ∉ front) : putBefore j i (front ++ [j]) = front ++ [i, j] := by
  induction front with
  | nil => simp [putBefore]
  | cons k front ih =>
    obtain ⟨hk, hrest⟩ := not_or.mp (List.mem_cons.not.mp h)
    rw [List.cons_append, putBefore, if_neg (Ne.symm hk), ih hrest, List.cons_append]

theorem prefix_erase {is : List InstId} (h : front <+: is) : front.erase i <+: is.erase i := by
  obtain ⟨rest, rfl⟩ := h
  by_cases hi : i ∈ front
  · exact ⟨rest, (List.erase_append_left rest hi).symm⟩
  · exact ⟨rest.erase i, by rw [List.erase_append_right rest hi, List.erase_of_not_mem hi]⟩

theorem mem_of_sublist_behind {back : List InstId} (hnodup : (front ++ i :: back).Nodup)
    (h : [i, j].Sublist (front ++ i :: back)) : j ∈ back := by
  obtain ⟨rs, ss, heq, hi, hj⟩ := List.cons_sublist_iff.mp h
  obtain ⟨rs₁, rs₂, rfl⟩ := List.append_of_mem hi
  have hfront : i ∉ front := fun h => (List.nodup_append.mp hnodup).2.2 i h i List.mem_cons_self rfl
  have hback : i ∉ back := (List.nodup_cons.mp (List.nodup_append.mp hnodup).2.1).1
  rw [List.append_assoc, List.cons_append, List.append_cons_inj_of_notMem hfront hback] at heq
  rw [heq.2.2]
  exact List.mem_append_right rs₂ (List.singleton_sublist.mp hj)

theorem mem_of_sublist_ahead {back : List InstId} (hnodup : (front ++ i :: back).Nodup)
    (h : [j, i].Sublist (front ++ i :: back)) : j ∈ front := by
  obtain ⟨rs, ss, heq, hj, hi⟩ := List.cons_sublist_iff.mp h
  obtain ⟨ss₁, ss₂, rfl⟩ := List.append_of_mem (List.singleton_sublist.mp hi)
  have hfront : i ∉ front := fun h => (List.nodup_append.mp hnodup).2.2 i h i List.mem_cons_self rfl
  have hback : i ∉ back := (List.nodup_cons.mp (List.nodup_append.mp hnodup).2.1).1
  rw [← List.append_assoc, List.append_cons_inj_of_notMem hfront hback] at heq
  rw [heq.1]
  exact List.mem_append_left ss₁ hj

theorem insert_last_perm : (front ++ [i, j]).Perm (i :: (front ++ [j])) :=
  List.perm_middle

end Layout

namespace Hoisting

open FlowGraph Execution

variable {g : FlowGraph} {l : Layout} {b c d p header : BlockId} {i j x last : InstId} {n m : Node}
  {front back : List InstId} {blocks path : List BlockId}

/-! ## Rearranged code -/

def Jumps (g : FlowGraph) (i : InstId) : Prop := ∃ n, g.nodes[i.index]? = some n ∧ n.inst.successors ≠ []

/-- The code of `g`, with some of it taken out and some moved up the tree of dominators. What jumps is where it was, and
what has come to a block is behind what was in front of some instruction. -/
structure Rearranged (g : FlowGraph) (l : Layout) : Prop where
  sound : l.Sound
  entry : l.insts graphEntry = []
  home : ∀ i c, l.home? i = some c → ∃ b, i ∈ g.insts b ∧ g.Dominates c b
  front : ∀ b front i back, g.Reachable b → g.insts b = front ++ i :: back →
    front.filter (l.home? · = some b) <+: l.insts b
  jumps : ∀ b i, g.Reachable b → Jumps g i → (i ∈ l.insts b ↔ i ∈ g.insts b)
  last : ∀ b i, g.Reachable b → Jumps g i → i ∈ l.insts b → ∃ front, l.insts b = front ++ [i]

theorem isTerminator_of_jumps (h : Jumps g i) (hn : g.nodes[i.index]? = some n) : n.inst.isTerminator = true := by
  obtain ⟨m, hm, hsucc⟩ := h
  obtain rfl := Option.some_inj.mp (hn.symm.trans hm)
  obtain ⟨c, hc⟩ := List.exists_mem_of_ne_nil _ hsucc
  exact Inst.isTerminator_of_mem_successors hc

theorem Rearranged.start (hg : Definite g) : Rearranged g g.layout where
  sound := hg.located.sound
  entry := hg.entry
  home i c hc := ⟨c, hg.located.mem_insts_iff.mpr hc, .refl c⟩
  front b front i back _ hsplit := by
    rw [List.filter_eq_self.mpr]
    · exact ⟨i :: back, hsplit.symm⟩
    · exact fun j hj => by simpa using hg.located.mem_insts_iff.mp (by simp [hsplit, hj] : j ∈ g.insts b)
  jumps _ _ _ _ := .rfl
  last b i hb hi hmem := by
    obtain ⟨front, back, hsplit⟩ := List.append_of_mem hmem
    have ⟨n, hn, _⟩ := hi
    obtain rfl := hg.rest_of_terminator hb hsplit hn (isTerminator_of_jumps hi hn)
    exact ⟨front, hsplit⟩

theorem Rearranged.takeOut (hl : Rearranged g l) (hb : l.home? i = some b) (hi : ¬ Jumps g i) :
    Rearranged g (l.unplace i b) := by
  have hinsts (c : BlockId) : (l.unplace i b).insts c = (l.insts c).erase i := hl.sound.insts_unplace hb
  constructor
  case sound => exact hl.sound.unplace hb
  case entry => rw [hinsts, hl.entry, List.erase_nil]
  case home =>
    intro j c hc
    rw [Layout.home?_unplace] at hc
    split at hc
    · cases hc
    · exact hl.home j c hc
  case front =>
    intro c front j back hc hsplit
    have hstart := hl.front c front j back hc hsplit
    have hnodup : (front.filter (l.home? · = some c)).Nodup := (hl.sound.nodup c).sublist hstart.sublist
    have hfilter : front.filter ((l.unplace i b).home? · = some c) = (front.filter (l.home? · = some c)).erase i := by
      rw [hnodup.erase_eq_filter, List.filter_filter]
      refine List.filter_congr fun k _ => ?_
      rw [Layout.home?_unplace]
      by_cases hk : k = i <;> simp [hk]
    rw [hfilter, hinsts]
    exact Layout.prefix_erase hstart
  case jumps =>
    intro c j hc hj
    rw [hinsts, List.mem_erase_of_ne (by rintro rfl; exact hi hj)]
    exact hl.jumps c j hc hj
  case last =>
    intro c j hc hj hmem
    have hne : i ≠ j := by
      rintro rfl
      exact hi hj
    rw [hinsts] at hmem ⊢
    obtain ⟨front, hfront⟩ := hl.last c j hc hj (List.mem_of_mem_erase hmem)
    rw [hfront]
    by_cases h : i ∈ front
    · exact ⟨front.erase i, List.erase_append_left _ h⟩
    · exact ⟨front, by rw [List.erase_append_right _ h, List.erase_of_not_mem (by simpa using hne)]⟩

theorem Rearranged.putIn (hg : Definite g) (hl : Rearranged g l) (hfree : l.home? i = none) (hi : ¬ Jumps g i)
    (hib : i ∈ g.insts b) (hdom : g.Dominates p b) (hne : p ≠ b) (hp : g.Reachable p)
    (hsplit : l.insts p = front ++ [last]) (hm : g.nodes[last.index]? = some m) (hterm : m.inst.isTerminator = true) :
    Rearranged g (l.place i p (front ++ [i, last])) := by
  have hinsts (c : BlockId) : (l.place i p (front ++ [i, last])).insts c = if c = p then front ++
    [i, last] else l.insts c :=
    Layout.insts_place _
  constructor
  case sound => exact hl.sound.place hfree (hsplit ▸ Layout.insert_last_perm)
  case entry =>
    rw [hinsts, if_neg, hl.entry]
    rintro rfl
    simp [hl.entry] at hsplit
  case home =>
    intro j c hc
    rw [Layout.home?_place] at hc
    split at hc
    case isTrue hj => exact ⟨b, hj ▸ hib, Option.some_inj.mp hc ▸ hdom⟩
    case isFalse => exact hl.home j c hc
  case front =>
    intro c front' j back hc hsplit'
    have hfilter : front'.filter ((l.place i p (front ++ [i, last])).home? · = some c) =
        front'.filter (l.home? · = some c) := by
      refine List.filter_congr fun k hk => ?_
      rw [Layout.home?_place]
      split
      case isTrue hki =>
        have hkc : k ∈ g.insts c := by simp [hsplit', hk]
        obtain rfl : c = b := hg.block_unique hkc (hki ▸ hib)
        simp [hki, hfree, hne]
      case isFalse => rfl
    rw [hfilter, hinsts]
    obtain ⟨rest, hstart⟩ := hl.front c front' j back hc hsplit'
    by_cases hcp : c = p
    · subst hcp
      rw [if_pos rfl]
      rw [hsplit] at hstart
      obtain rfl | ⟨rest, k, rfl⟩ := List.eq_nil_or_concat' rest
      · -- The last instruction was not in front of another one.
        have hmem : last ∈ front'.filter (l.home? · = some c) := by
          rw [List.append_nil] at hstart
          simp [hstart]
        obtain ⟨front₁, front₂, rfl⟩ := List.append_of_mem (List.mem_filter.mp hmem).1
        have := hg.rest_of_terminator hc (by simpa using hsplit') hm hterm
        simp at this
      · rw [← List.append_assoc] at hstart
        rw [← (List.append_inj' hstart rfl).1, List.append_assoc]
        exact List.prefix_append _ _
    · rw [if_neg hcp]
      exact ⟨rest, hstart⟩
  case jumps =>
    intro c j hc hj
    have hji : j ≠ i := by
      rintro rfl
      exact hi hj
    rw [← hl.jumps c j hc hj, hinsts]
    split
    case isTrue hcp => simp [hcp, hsplit, hji]
    case isFalse => rfl
  case last =>
    intro c j hc hj hmem
    rw [hinsts] at hmem ⊢
    split
    case isTrue hcp =>
      have hji : j ≠ i := by
        rintro rfl
        exact hi hj
      rw [if_pos hcp] at hmem
      obtain ⟨front', hfront'⟩ := hl.last c j hc hj (by rw [hcp, hsplit]; simpa [hji] using hmem)
      rw [hcp, hsplit] at hfront'
      obtain ⟨rfl, hlast⟩ := List.append_inj' hfront' rfl
      rw [List.singleton_injective hlast]
      exact ⟨front ++ [i], by simp⟩
    case isFalse hcp =>
      rw [if_neg hcp] at hmem
      exact hl.last c j hc hj hmem

/-! ## Hoisted code -/

/-- `x` is evaluated before `i`, which is in `c`, or is not in the code any more. -/
inductive Before (g : FlowGraph) (l : Layout) (x i : InstId) (c : BlockId) : Prop
  | initial (hx : x ∈ g.initialDefinitions)
  | live {a : BlockId} (hx : x ∈ g.live a) (hdom : g.Dominates a c)
  | above {a : BlockId} (hx : l.home? x = some a) (hne : a ≠ c) (hdom : g.Dominates a c)
  | ahead (hx : [x, i].Sublist (l.insts c))
  | gone {a : BlockId} (hplaced : x ∈ g.insts a) (hx : l.home? x = none)

def Movable (d : Inst) : Prop :=
  d.successors = [] ∧ d.hasSideEffect = false ∧ (d.affectedBySideEffect = .ok false ∨ d.isMutableLoad = true)

/-- Instructions have been moved to blocks that lead into loops. What has a value is still evaluated before what reads
it, and memory is not written between the new place of a load and the one where it was. -/
structure Hoisted (g : FlowGraph) (l : Layout) : Prop extends Rearranged g l where
  inputs : ∀ i n c, g.nodes[i.index]? = some n → n.inst.isDefinition = true → l.home? i = some c → g.Reachable c →
    ∀ x ∈ n.inst.args, ∀ m, g.nodes[x.index]? = some m → m.inst.isTerminator = false → Before g l x i c
  moved : ∀ i n b c, g.nodes[i.index]? = some n → i ∈ g.insts b → l.home? i = some c → c ≠ b →
    g.Reachable c ∧ Movable n.inst ∧ ∃ header, g.preHeader? header = .ok (some c) ∧ g.Dominates header b
  between : ∀ i n b c, g.nodes[i.index]? = some n → n.inst.isMutableLoad = true → i ∈ g.insts b → l.home? i = some c →
    ∀ path d, g.IsPath (b :: path) → Behind c d (b :: path) → Silent g (l.insts d)
  behind : ∀ i n b c, g.nodes[i.index]? = some n → n.inst.isMutableLoad = true → i ∈ g.insts b → l.home? i = some c →
    c ≠ b → ∀ j, [i, j].Sublist (l.insts c) → Silent g [j]

theorem Movable.of_mapArgs {d e : Inst} {f : Nat → InstId → InstId} (h : Movable d) (heq : d = e.mapArgs f) :
    Movable e := by
  rw [heq, Movable, Inst.successors_mapArgs, Inst.hasSideEffect_mapArgs, Inst.affectedBySideEffect_mapArgs,
    Inst.isMutableLoad_mapArgs] at h
  exact h

theorem movable_of_isMovable {d : Inst} {written : Bool} (h : isMovable written d = .ok true) :
    Movable d ∧ (d.isMutableLoad = true → written = false) := by
  unfold isMovable at h
  split at h
  · cases h
  split at h
  · have hwritten : written = false := by simpa [pure, Except.pure] using h
    exact ⟨⟨rfl, rfl, .inr rfl⟩, fun _ => hwritten⟩
  · obtain ⟨r, hr, h⟩ := bind_eq_ok.mp h
    rw [pure_eq_ok, Bool.not_eq_true'] at h
    rw [h] at hr
    obtain ⟨hsucc, hquiet⟩ := Inst.of_unaffected hr
    refine ⟨⟨hsucc, hquiet, .inl hr⟩, fun hload => ?_⟩
    rw [(Inst.of_isMutableLoad hload).1] at hr
    cases hr

theorem Hoisted.start (hg : Definite g) : Hoisted g g.layout where
  toRearranged := .start hg
  inputs i n c hn _ hc hreach x hx m _ _ := by
    have hmem : i ∈ g.insts c := hg.located.mem_insts_iff.mpr hc
    obtain hinitial | ⟨a, c', hxa, -, hmem', hdom, hfront⟩ := hg.precedes_input hreach hmem hn hx
    · exact .initial hinitial
    obtain rfl := hg.block_unique hmem hmem'
    obtain hxa | hxa := hxa
    · by_cases hac : a = c
      · subst hac
        obtain ⟨front, back, hsplit⟩ := List.append_of_mem hmem
        obtain ⟨front₁, front₂, rfl⟩ := List.append_of_mem (hfront front back hsplit hxa)
        refine .ahead ?_
        show [x, i].Sublist (g.insts a)
        rw [hsplit, List.append_assoc, List.cons_append]
        exact (((List.singleton_sublist.mpr (by simp)).cons_cons x).trans (List.sublist_append_right front₁ _))
      · exact .above (hg.located.mem_insts_iff.mp hxa) hac hdom
    · exact .live hxa hdom
  moved i n b c _ hb hc hne := absurd (hg.block_unique (hg.located.mem_insts_iff.mpr hc) hb) hne
  between i n b c _ _ hb hc path d _ hbehind := by
    obtain rfl := hg.block_unique (hg.located.mem_insts_iff.mpr hc) hb
    exact absurd hbehind not_behind_self
  behind i n b c _ _ hb hc hne := absurd (hg.block_unique (hg.located.mem_insts_iff.mpr hc) hb) hne

theorem Hoisted.takeOut (hl : Hoisted g l) (hb : l.home? i = some b) (hi : ¬ Jumps g i) :
    Hoisted g (l.unplace i b) := by
  have hinsts (c : BlockId) : (l.unplace i b).insts c = (l.insts c).erase i := hl.sound.insts_unplace hb
  have hhome {j : InstId} {c : BlockId} (h : (l.unplace i b).home? j = some c) : j ≠ i ∧ l.home? j = some c := by
    rw [Layout.home?_unplace] at h
    split at h
    case isTrue => cases h
    case isFalse hj => exact ⟨hj, h⟩
  refine { hl.toRearranged.takeOut hb hi with
    inputs := fun j k c hk hkdef hc hreach x hx m hm hterm => ?_
    moved := fun j k b' c hk hj hc => hl.moved j k b' c hk hj (hhome hc).2
    between := fun j k b' c hk hload hj hc path d hpath hbehind => ?_
    behind := fun j k b' c hk hload hj hc hne e he => ?_ }
  · by_cases hxi : x = i
    · obtain ⟨a, hplaced, -⟩ := hl.home i b hb
      exact .gone (hxi ▸ hplaced) (by rw [Layout.home?_unplace, if_pos hxi])
    obtain ⟨hji, hc⟩ := hhome hc
    cases hl.inputs j k c hk hkdef hc hreach x hx m hm hterm with
    | initial hx => exact .initial hx
    | live hx hdom => exact .live hx hdom
    | above hx hne hdom => exact .above (by rwa [Layout.home?_unplace, if_neg hxi]) hne hdom
    | gone hplaced hx => exact .gone hplaced (by rwa [Layout.home?_unplace, if_neg hxi])
    | ahead hx =>
      refine .ahead ?_
      rw [hinsts]
      have herase := hx.erase i
      rwa [List.erase_of_not_mem (by simp [Ne.symm hxi, Ne.symm hji])] at herase
  · rw [hinsts]
    exact fun e he => hl.between j k b' c hk hload hj (hhome hc).2 path d hpath hbehind e (List.mem_of_mem_erase he)
  · rw [hinsts] at he
    exact hl.behind j k b' c hk hload hj (hhome hc).2 hne e (he.trans List.erase_sublist)

theorem hasSideEffect_of_goto {d : Inst} (h : d.opcode = .goto) : d.hasSideEffect = false := by
  cases d with
  | unary o => simp_all [Inst.opcode, Inst.hasSideEffect]
  | compare c =>
    have h : c.opcode = .goto := h
    unfold Comparison.opcode at h
    split at h <;> cases h
  | _ => first | rfl | cases h

/-- On the way to a block of the loop or past it, what comes behind the block that leads into the loop is behind the
block of the loop or in the loop. -/
theorem behind_or_mem (hloop : g.IsLoop header blocks) (hp : g.Enters p header) (hc : c ∈ blocks)
    (hpath : g.IsPath path) (hbehind : Behind p d path) : Behind c d path ∨ d ∈ blocks := by
  obtain ⟨front, back, rfl, hmem⟩ := hbehind
  by_cases hcd : c ∈ front ++ [d]
  · refine .inr ?_
    obtain hcf | hcd := List.mem_append.mp hcd
    · obtain ⟨front₁, front₂, rfl⟩ := List.append_of_mem hcf
      rw [List.append_assoc] at hpath hmem
      exact hloop.mem_of_behind hp hpath.drop (fun h => hmem (List.mem_append_right front₁ h)) hc
    · exact List.mem_singleton.mp hcd ▸ hc
  · exact .inl ⟨front, back, rfl, hcd⟩

/-- `i` is taken from `c` to the end of `p`, whose last instruction is `last`. -/
def shifted (l : Layout) (i : InstId) (c p : BlockId) (front : List InstId) (last : InstId) : Layout :=
  (l.unplace i c).place i p (front ++ [i, last])

theorem home?_shifted (j : InstId) :
    (shifted l i c p front last).home? j = if j = i then some p else l.home? j := by
  unfold shifted
  rw [Layout.home?_place, Layout.home?_unplace]
  split <;> rfl

/-- `i`, which is in the block `c` of a loop, may go in front of the goto that leads into the loop. -/
structure Moving (g : FlowGraph) (l : Layout) (header : BlockId) (blocks : List BlockId) (i : InstId) (n : Node)
    (c p : BlockId) (front : List InstId) (last : InstId) : Prop where
  loop : g.IsLoop header blocks
  enters : g.Enters p header
  preHeader : g.preHeader? header = .ok (some p)
  home : l.home? i = some c
  mem : c ∈ blocks
  node : g.nodes[i.index]? = some n
  movable : Movable n.inst
  load : n.inst.isMutableLoad = true → ∀ d ∈ blocks, Silent g (l.insts d)
  split : l.insts p = front ++ [last]
  goto : ∃ m, g.nodes[last.index]? = some m ∧ m.inst.opcode = .goto
  inputs : n.inst.isDefinition = true → ∀ x ∈ n.inst.args, ∀ m, g.nodes[x.index]? = some m →
    m.inst.isTerminator = false → x ∈ g.initialDefinitions ∨
      (∃ a, (x ∈ g.live a ∨ l.home? x = some a) ∧ g.Dominates a p) ∨ ∃ a, x ∈ g.insts a ∧ l.home? x = none

namespace Moving

variable (hmove : Moving g l header blocks i n c p front last)

include hmove

theorem dominates : g.Dominates p c := hmove.loop.dominates hmove.enters hmove.mem

theorem ne : p ≠ c := fun h => hmove.loop.not_mem hmove.enters (h ▸ hmove.mem)

theorem not_dominates : ¬ g.Dominates c p := fun h =>
  hmove.ne (hmove.dominates.antisymm h (hmove.loop.reachable c hmove.mem))

theorem reachable : g.Reachable p := hmove.dominates.reachable (hmove.loop.reachable c hmove.mem)

theorem not_jumps : ¬ Jumps g i := by
  rintro ⟨m, hm, hsucc⟩
  obtain rfl := Option.some_inj.mp (hmove.node.symm.trans hm)
  exact hsucc hmove.movable.1

theorem silent : Silent g [i] := by
  intro j hj m hm
  obtain rfl := List.mem_singleton.mp hj
  obtain rfl := Option.some_inj.mp (hmove.node.symm.trans hm)
  exact hmove.movable.2.1

theorem insts_shifted (hl : l.Sound) (d : BlockId) :
    (shifted l i c p front last).insts d = if d = p then front ++ [i, last] else (l.insts d).erase i := by
  unfold shifted
  rw [Layout.insts_place, hl.insts_unplace hmove.home]

theorem rearranged (hg : Definite g) (hl : Rearranged g l) : Rearranged g (shifted l i c p front last) := by
  obtain ⟨b, hib, hdom⟩ := hl.home i c hmove.home
  obtain ⟨m, hm, hgoto⟩ := hmove.goto
  have hip : i ∉ l.insts p := by
    rw [hl.sound.mem_iff, hmove.home, Option.some_inj]
    exact hmove.ne.symm
  refine (hl.takeOut hmove.home hmove.not_jumps).putIn hg ?_ hmove.not_jumps hib (hmove.dominates.trans hdom) ?_
    hmove.reachable ?_ hm (by simp [Inst.isTerminator, hgoto, Opcode.isTerminator])
  · rw [Layout.home?_unplace, if_pos rfl]
  · rintro rfl
    exact hmove.not_dominates hdom
  · rw [hl.sound.insts_unplace hmove.home, List.erase_of_not_mem hip, hmove.split]

theorem nodup_shifted (hg : Definite g) (hl : Rearranged g l) : (front ++ i :: [last]).Nodup := by
  have := (hmove.rearranged hg hl).sound.nodup p
  rwa [hmove.insts_shifted hl.sound, if_pos rfl] at this

theorem before_self (hl : Hoisted g l) (hdef : n.inst.isDefinition = true) (hx : x ∈ n.inst.args)
    (hm : g.nodes[x.index]? = some m) (hterm : m.inst.isTerminator = false) :
    Before g (shifted l i c p front last) x i p := by
  obtain hinitial | ⟨a, hxa | hxa, hdom⟩ | ⟨a, hplaced, hgone⟩ := hmove.inputs hdef x hx m hm hterm
  · exact .initial hinitial
  · exact .live hxa hdom
  case inr.inr =>
    have hxi : x ≠ i := by
      rintro rfl
      rw [hmove.home] at hgone
      cases hgone
    exact .gone hplaced (by rwa [home?_shifted, if_neg hxi])
  have hxi : x ≠ i := by
    rintro rfl
    obtain rfl := Option.some_inj.mp (hxa.symm.trans hmove.home)
    exact hmove.not_dominates hdom
  by_cases hap : a = p
  · subst hap
    refine .ahead ?_
    rw [hmove.insts_shifted hl.sound, if_pos rfl]
    have hxp := hl.sound.mem_iff.mpr hxa
    rw [hmove.split, List.mem_append, List.mem_singleton] at hxp
    obtain hxp | rfl := hxp
    · exact (List.singleton_sublist.mpr hxp).append (List.singleton_sublist.mpr List.mem_cons_self)
    · obtain ⟨o, ho, hgoto⟩ := hmove.goto
      obtain rfl := Option.some_inj.mp (hm.symm.trans ho)
      simp [Inst.isTerminator, hgoto, Opcode.isTerminator] at hterm
  · exact .above (by rwa [home?_shifted, if_neg hxi]) hap hdom

theorem before_other (hl : Hoisted g l) (hji : j ≠ i) (hx : Before g l x j d) :
    Before g (shifted l i c p front last) x j d := by
  by_cases hxi : x = i
  · subst hxi
    have hhome : (shifted l x c p front last).home? x = some p := by rw [home?_shifted, if_pos rfl]
    cases hx with
    | initial hx => exact .initial hx
    | live hx hdom => exact .live hx hdom
    | above hx hne hdom =>
      obtain rfl := Option.some_inj.mp (hx.symm.trans hmove.home)
      refine .above hhome ?_ (hmove.dominates.trans hdom)
      rintro rfl
      exact hmove.not_dominates hdom
    | ahead hx =>
      have hxd := hl.sound.mem_iff.mp (hx.subset List.mem_cons_self)
      obtain rfl := Option.some_inj.mp (hxd.symm.trans hmove.home)
      exact .above hhome hmove.ne hmove.dominates
    | gone _ hx =>
      rw [hmove.home] at hx
      cases hx
  · cases hx with
    | initial hx => exact .initial hx
    | live hx hdom => exact .live hx hdom
    | above hx hne hdom => exact .above (by rwa [home?_shifted, if_neg hxi]) hne hdom
    | gone hplaced hx => exact .gone hplaced (by rwa [home?_shifted, if_neg hxi])
    | ahead hx =>
      refine .ahead ?_
      rw [hmove.insts_shifted hl.sound]
      split
      case isTrue hdp =>
        rw [hdp, hmove.split] at hx
        exact hx.trans ((List.sublist_cons_self i [last]).append_left front)
      case isFalse =>
        have herase := hx.erase i
        rwa [List.erase_of_not_mem (by simp [Ne.symm hxi, Ne.symm hji])] at herase

theorem silent_shifted (hl : l.Sound) (h : Silent g (l.insts d)) : Silent g ((shifted l i c p front last).insts d) := by
  rw [hmove.insts_shifted hl]
  intro j hj
  by_cases hji : j = i
  · exact hji ▸ hmove.silent i List.mem_cons_self
  refine h j ?_
  split at hj
  case isTrue hdp =>
    rw [hdp, hmove.split]
    simpa [hji] using hj
  case isFalse => exact List.mem_of_mem_erase hj

theorem silent_between (hl : Hoisted g l) (hib : i ∈ g.insts b) (hload : n.inst.isMutableLoad = true)
    (hpath : g.IsPath (b :: path)) (hbehind : Behind p d (b :: path)) : Silent g (l.insts d) := by
  obtain h | h := behind_or_mem hmove.loop hmove.enters hmove.mem hpath hbehind
  · exact hl.between i n b c hmove.node hload hib hmove.home path d hpath h
  · exact hmove.load hload d h

theorem sublist_of_shifted (hg : Definite g) (hl : Rearranged g l) (hji : j ≠ i) (hxi : x ≠ i)
    (h : [j, x].Sublist ((shifted l i c p front last).insts d)) : [j, x].Sublist (l.insts d) := by
  rw [hmove.insts_shifted hl.sound] at h
  split at h
  case isTrue hdp =>
    have hfront : i ∉ front := fun h => (List.nodup_append.mp (hmove.nodup_shifted hg hl)).2.2 i h i List.mem_cons_self
      rfl
    have herase := h.erase i
    rw [List.erase_of_not_mem (by simp [Ne.symm hji, Ne.symm hxi]), List.erase_append_right _ hfront,
      List.erase_cons_head, ← hmove.split] at herase
    rwa [hdp]
  case isFalse => exact h.trans List.erase_sublist

/-- Something that may be moved goes in front of the goto that leads into the loop. -/
theorem hoisted (hg : Definite g) (hl : Hoisted g l) : Hoisted g (shifted l i c p front last) where
  toRearranged := hmove.rearranged hg hl.toRearranged
  inputs j k d hk hdef hd hreach x hx m hm hterm := by
    rw [home?_shifted] at hd
    by_cases hji : j = i
    · subst hji
      rw [if_pos rfl, Option.some_inj] at hd
      obtain rfl := Option.some_inj.mp (hmove.node.symm.trans hk)
      exact hd ▸ hmove.before_self hl hdef hx hm hterm
    · rw [if_neg hji] at hd
      exact hmove.before_other hl hji (hl.inputs j k d hk hdef hd hreach x hx m hm hterm)
  moved j k b d hk hj hd hdb := by
    rw [home?_shifted] at hd
    by_cases hji : j = i
    · subst hji
      rw [if_pos rfl, Option.some_inj] at hd
      obtain rfl := Option.some_inj.mp (hmove.node.symm.trans hk)
      obtain ⟨b', hb', hdom⟩ := hl.home j c hmove.home
      obtain rfl := hg.block_unique hb' hj
      rw [← hd]
      exact ⟨hmove.reachable, hmove.movable, header, hmove.preHeader, (hmove.loop.dominated c hmove.mem).trans hdom⟩
    · rw [if_neg hji] at hd
      exact hl.moved j k b d hk hj hd hdb
  between j k b d hk hload hj hd path e hpath hbehind := by
    rw [home?_shifted] at hd
    refine hmove.silent_shifted hl.sound ?_
    by_cases hji : j = i
    · subst hji
      rw [if_pos rfl, Option.some_inj] at hd
      obtain rfl := Option.some_inj.mp (hmove.node.symm.trans hk)
      exact hmove.silent_between hl hj hload hpath (hd ▸ hbehind)
    · rw [if_neg hji] at hd
      exact hl.between j k b d hk hload hj hd path e hpath hbehind
  behind j k b d hk hload hj hd hdb e he := by
    rw [home?_shifted] at hd
    by_cases hji : j = i
    · subst hji
      rw [if_pos rfl, Option.some_inj] at hd
      rw [hmove.insts_shifted hl.sound, if_pos hd.symm] at he
      obtain rfl := List.mem_singleton.mp (Layout.mem_of_sublist_behind (hmove.nodup_shifted hg hl.toRearranged) he)
      obtain ⟨m, hm, hgoto⟩ := hmove.goto
      intro y hy o ho
      obtain rfl := List.mem_singleton.mp hy
      obtain rfl := Option.some_inj.mp (hm.symm.trans ho)
      exact hasSideEffect_of_goto hgoto
    · rw [if_neg hji] at hd
      by_cases hei : e = i
      · exact hei ▸ hmove.silent
      · exact hl.behind j k b d hk hload hj hd hdb e (hmove.sublist_of_shifted hg hl.toRearranged hji hei he)

end Moving

end Hoisting

end Midend

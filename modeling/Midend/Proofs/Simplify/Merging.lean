import Midend.Proofs.Builder
import Midend.Proofs.Execution.Runs
import Midend.Proofs.Execution.Since
import Midend.Proofs.Simplify.Walk

/-! # Merging a comparison keeps decisions

A comparison that moves into a branch is made later than it was. Its operands have not been evaluated since then, and a
comparison that may call out moves across nothing that writes memory, so that the branch goes where it went.
-/

namespace Midend.Simplify

open Midend.Flow FlowGraph Execution

variable {g h h' : FlowGraph} {a d i u branch : InstId} {b : BlockId} {n : Node} {c tested : Comparison}
  {onTrue onFalse : BlockId} {M : Type} {m : Meaning M} {s : State M} {σ σ' : Values} {μ μ' : M} {v : Value}
  {path : List BlockId} {front rest since : List InstId}

/-! ## Decisions -/

/-- What comparisons of values give, and what they leave of memory. One that calls out may not come back. -/
abbrev Judge (M : Type) := Comparison → Value → Value → M → Option (Value × M)

namespace Judge

def at? (judge : Judge M) (c : Comparison) (σ : Values) (μ : M) : Option (Value × M) :=
  (σ c.left).bind fun l => (σ c.right).bind fun r => judge c l r μ

/-- Where a branch goes, and what it leaves of memory. This is told apart from the steps of executions, which choose a
block by values only: what a comparison gives that calls out may depend on memory. -/
def target? (judge : Judge M) (σ : Values) (μ : M) : Inst → Option (BlockId × M)
  | .branch c onTrue onFalse =>
    (judge.at? c σ μ).map fun (v, μ') => (if v.same (.bool true) then onTrue else onFalse, μ')
  | _ => none

end Judge

variable {judge : Judge M}

theorem Judge.target?_branch : judge.target? σ μ (.branch c onTrue onFalse) =
    (judge.at? c σ μ).map fun (v, μ') => (if v.same (.bool true) then onTrue else onFalse, μ') := rfl

theorem Judge.at?_congr (hl : σ' c.left = σ c.left) (hr : σ' c.right = σ c.right) :
    judge.at? c σ' μ = judge.at? c σ μ := by
  unfold Judge.at?
  rw [hl, hr]

/-- Comparisons are decided by `judge`. Whether a value is `true` is seen at once, and a comparison that does not call
out neither looks at memory nor changes it. -/
structure Judges (m : Meaning M) (judge : Judge M) : Prop where
  compare : ∀ σ μ i c r μ', m.does σ μ i (.compare c) r μ' → ∃ v, r = some v ∧ judge.at? c σ μ = some (v, μ')
  constant : ∀ σ μ i k r μ', m.does σ μ i (.constant k) r μ' → r = some (.constant k)
  truth : ∀ c v μ, c.kind = .strict → c.op = .eqStrict →
    judge c v (.bool true) μ = some (.bool (v.same (.bool true)), μ)
  specific : ∀ c l r μ v μ', c.isGeneric = false → judge c l r μ = some (v, μ') → ∀ ν, judge c l r ν = some (v, ν)

theorem same_bool_true {x : Bool} : (Value.bool x).same (.bool true) = x := by cases x <;> rfl

theorem Judges.target?_tested (hj : Judges m judge) (hkind : tested.kind = .strict) (hop : tested.op = .eqStrict)
    (hleft : σ tested.left = some v) (hright : σ tested.right = some (.bool true)) :
    judge.target? σ μ (.branch tested onTrue onFalse) = some (if v.same (.bool true) then onTrue else onFalse, μ) := by
  rw [Judge.target?_branch, Judge.at?, hleft, Option.bind_some, hright, Option.bind_some, hj.truth tested v μ hkind hop,
    Option.map_some]
  dsimp only
  rw [same_bool_true]

theorem Judges.at?_specific (hj : Judges m judge) (hc : c.isGeneric = false) (hv : judge.at? c σ μ = some (v, μ'))
    (ν : M) : judge.at? c σ ν = some (v, ν) := by
  obtain ⟨l, hl, hv⟩ := Option.bind_eq_some_iff.mp hv
  obtain ⟨r, hr, hv⟩ := Option.bind_eq_some_iff.mp hv
  unfold Judge.at?
  rw [hl, Option.bind_some, hr, Option.bind_some]
  exact hj.specific c l r μ v μ' hc hv ν

/-! ## What a branch reads -/

theorem constant_value (hg : Definite g) (ht : Thinned g h) (hj : Judges m judge) (hfollows : Follows h m path front s)
    (hrest : s.rest = u :: rest) (hn : h.nodes[a.index]? = some n) {k : Constant} (hk : n.inst = .constant k)
    (hbefore : a ∈ g.initialDefinitions ∨ Precedes g a u ∧ ∃ c, a ∈ h.insts c) : s.values a = some (.constant k) := by
  obtain hinitial | ⟨hbefore, c, hmem⟩ := hbefore
  · exact ht.constant_value hg hfollows hinitial hn hk
  obtain ⟨o, ho, hkind⟩ := ht.nodes.node a n hn
  obtain ⟨s₀, rest₀, s₁, since, -, hrest₀, hstep, ⟨_, _, hcome⟩, hsince, hnot, -⟩ :=
    ht.executed hg hfollows hrest hmem ho (by rw [← hkind.isTerminator, hk]; rfl) hbefore
  obtain ⟨-, r, hdoes, -, hvalue⟩ := hstep.within hrest₀ hn (by rw [hk]; rfl)
  rw [hk] at hdoes hvalue
  obtain ⟨v, rfl, hv⟩ := hvalue rfl
  obtain rfl := Option.some_inj.mp (hj.constant _ _ _ _ _ _ hdoes)
  obtain ⟨-, hvalues, -⟩ := hsince.keeps (ht.traceable hg) hcome
  exact (hvalues a (hnot a (.inl rfl))).trans hv

def OnlyReads (h : FlowGraph) (branch d : InstId) : Prop :=
  ∀ b u n k, h.Reachable b → u ∈ h.insts b ∨ LivePhi h b u → h.nodes[u.index]? = some n → n.inst.args[k]? = some d →
    u = branch ∧ k = 0

theorem onlyReads_of_mergeable (hg : Definite g) (hs : Simplified g h) (hm : Mergeable h branch tested c) :
    OnlyReads h branch tested.left := by
  intro b u n k hb hu hn hk
  have hreach := (hs.thinned.reachable_iff hg).mp hb
  have hcounts : Loads.Counts g h u :=
    hu.imp (fun hu => ⟨b, hreach, hu⟩) fun hphi => .inl ⟨b, hreach, ((hs.thinned.live_eq b).2 u).mp hphi⟩
  obtain ⟨l, hl, -, huses, -⟩ := hm.comparison
  obtain ⟨l', hl', hmem⟩ := hs.uses.listed u n k tested.left hcounts hn hk
  obtain rfl := Option.some_inj.mp (hl.symm.trans hl')
  rw [huses, List.mem_singleton] at hmem
  exact ⟨congrArg Use.user hmem, congrArg Use.index hmem⟩

/-- What the comparison and the branch read: the comparison comes before the branch, and so does the `true` that it is
tested for, and the operands come before the comparison. -/
structure Before (g h : FlowGraph) (branch : InstId) (tested c : Comparison) : Prop where
  comparison : Precedes g tested.left branch
  home : ∃ a, g.Reachable a ∧ tested.left ∈ h.insts a
  truth : tested.right ∈ g.initialDefinitions ∨ Precedes g tested.right branch ∧ ∃ a, tested.right ∈ h.insts a
  operands : ∀ d, d = c.left ∨ d = c.right → d ≠ tested.left ∧ (d ∈ g.initialDefinitions ∨ Precedes g d tested.left)

theorem Merged.before_of_reached (hg : Definite g) (hs : Simplified g h)
    (hm : Merged h h' branch tested c onTrue onFalse) (hb : g.Reachable b) (hbranch : branch ∈ h.insts b) :
    Before g h branch tested c := by
  obtain ⟨n, hn, hinst⟩ := hm.before
  obtain ⟨l, hl, hc, -⟩ := hm.mergeable.comparison
  obtain ⟨k, hk, htrue⟩ := hm.mergeable.tests.right
  obtain ⟨hbefore, a, ha, hcompare⟩ := hs.home hg hb hbranch hn (by simp [hinst, Inst.args]) hl hc
  refine ⟨hbefore, ⟨a, ha, hcompare⟩, ?_, fun d hd => ?_⟩
  · obtain hinitial | ⟨htruth, a', -, hmem⟩ | halive := hs.cases_read hg hb hbranch hn (a := tested.right)
      (by simp [hinst, Inst.args]) hk
    · exact .inl hinitial
    · exact .inr ⟨htruth, a', hmem⟩
    · rw [htrue] at halive
      cases halive
  · have hread := hs.reads a tested.left l d ha hcompare hl (by rw [hc]; simpa [Inst.args] using hd)
    exact ⟨hread.ne hg (hs.thinned.mem_insts hcompare), hread.2⟩

theorem between_unique (hsound : h.layout.Sound) {front' since' rest' : List InstId}
    (hsplit : h.insts b = front ++ d :: (since ++ i :: rest))
    (hsplit' : h.insts b = front' ++ d :: (since' ++ i :: rest')) : since = since' := by
  obtain ⟨rfl, -⟩ := hsound.split_unique hsplit hsplit'
  have hlater : h.insts b = (front ++ d :: since) ++ i :: rest := by simp [hsplit]
  have hlater' : h.insts b = (front ++ d :: since') ++ i :: rest' := by simp [hsplit']
  simpa using (hsound.split_unique hlater hlater').1

theorem Mergeable.between (hm : Mergeable h branch tested c) (hsound : h.layout.Sound) (hc : c.isGeneric = true) :
    (∀ b, tested.left ∈ h.insts b ↔ branch ∈ h.insts b) ∧
      ∀ b front since later, h.insts b = front ++ tested.left :: (since ++ branch :: later) →
      ∀ i ∈ since, Inert h i := by
  obtain ⟨b, front, between, back, hsplit, hinert⟩ := inert_of_onlyPureBetween hsound (hm.inert hc)
  have hleft : tested.left ∈ h.insts b := by simp [hsplit]
  have hbranch : branch ∈ h.insts b := by simp [hsplit]
  refine ⟨fun b' => ⟨fun hmem => ?_, fun hmem => ?_⟩, fun b' front' since later hsplit' => ?_⟩
  · rwa [← hsound.block_unique hleft hmem]
  · rwa [← hsound.block_unique hbranch hmem]
  · obtain rfl : b' = b := hsound.block_unique (by rw [show h.layout.insts b' = _ from hsplit']; simp) hleft
    rw [between_unique hsound hsplit' hsplit]
    exact hinert

theorem silent_of_inert (hinert : ∀ i ∈ since, Inert h i) : Silent h since := fun i hi n hn => by
  obtain ⟨n', hn', heffect, -⟩ := hinert i hi
  obtain rfl := Option.some_inj.mp (hn.symm.trans hn')
  exact heffect

/-! ## The old execution -/

/-- Whenever control comes to the branch, the comparison was made, and the branch goes where it would go if it made the
comparison itself. What was evaluated in between does not make the comparison again; a comparison that may call out is
in the same block, and nothing in between writes memory or gives up. -/
def DecidesAlike (h : FlowGraph) (m : Meaning M) (judge : Judge M) (branch : InstId) (tested c : Comparison)
    (onTrue onFalse : BlockId) : Prop :=
  ∀ s rest, Reaches h m s → s.rest = branch :: rest → ∃ s₀ rest₀ s₁ since target,
    Reaches h m s₀ ∧ s₀.rest = tested.left :: rest₀ ∧ Step h m s₀ s₁ ∧ Since h m s₁ since s ∧ tested.left ∉ since ∧
      (c.isGeneric = true → (∃ front later, h.insts s.block = front ++ tested.left :: (since ++ branch :: later)) ∧
        ∀ i ∈ since, Inert h i) ∧
      judge.target? s.values s.memory (.branch tested onTrue onFalse) = some (target, s.memory) ∧
      judge.target? s.values (if c.isGeneric then s₀.memory else s.memory) (.branch c onTrue onFalse) =
        some (target, s.memory)

theorem decidesAlike (hg : Definite g) (hs : Simplified g h) (hm : Merged h h' branch tested c onTrue onFalse)
    (hj : Judges m judge) (hquiet : Quiet m) : DecidesAlike h m judge branch tested c onTrue onFalse := by
  intro s rest hreaches hrest
  obtain ⟨path, front, hfollows⟩ := Follows.of_reaches hreaches
  have htrace := hs.thinned.traceable hg
  have hb : h.Reachable s.block ∧ branch ∈ h.insts s.block := by
    obtain ⟨hpath, hblock, hinsts⟩ := hfollows.sound htrace
    exact ⟨hblock ▸ hpath.reachable, by simp [hinsts, hrest]⟩
  have hbefore := hm.before_of_reached hg hs ((hs.thinned.reachable_iff hg).mp hb.1) hb.2
  obtain ⟨l, hl, hc, -⟩ := hm.mergeable.comparison
  obtain ⟨k, hk, htrue⟩ := hm.mergeable.tests.right
  obtain ⟨a, -, hcompare⟩ := hbefore.home
  obtain ⟨o, ho, hkind⟩ := hs.thinned.nodes.node tested.left l hl
  have hplain : l.inst.isTerminator = false := by
    rw [hc]
    exact (Naming.Comparison.opcode_traits c).2.2
  obtain ⟨s₀, rest₀, s₁, since, ⟨_, _, hcome₀⟩, hrest₀, hstep, ⟨_, _, hcome₁⟩, hsince, hnot, hplace⟩ :=
    hs.thinned.executed hg hfollows hrest hcompare ho (hkind.isTerminator ▸ hplain) hbefore.comparison
  obtain ⟨-, r, hdoes, hothers, hvalue⟩ := hstep.within hrest₀ hl hplain
  rw [hc] at hdoes hvalue
  obtain ⟨v, rfl, hat⟩ := hj.compare _ _ _ _ _ _ hdoes
  obtain ⟨v', heq, hv⟩ := hvalue (Naming.Comparison.opcode_traits c).1
  obtain rfl := Option.some_inj.mp heq
  obtain ⟨-, hvalues, hmemory⟩ := hsince.keeps htrace hcome₁
  have hleft : s.values tested.left = some v := (hvalues _ (hnot _ (.inl rfl))).trans hv
  have hright := constant_value hg hs.thinned hj hfollows hrest hk htrue hbefore.truth
  have hoperand (d : InstId) (hd : d = c.left ∨ d = c.right) : s.values d = s₀.values d := by
    obtain ⟨hne, hfirst⟩ := hbefore.operands d hd
    exact (hvalues d (hnot d (.inr hfirst))).trans (hothers d hne)
  have hbetween (hgeneric : c.isGeneric = true) :
      (∃ front later, h.insts s.block = front ++ tested.left :: (since ++ branch :: later)) ∧
      ∀ i ∈ since, Inert h i := by
    obtain ⟨hsame, hinert⟩ := hm.mergeable.between hs.thinned.outline.sound hgeneric
    obtain rfl := hs.thinned.outline.sound.block_unique hcompare ((hsame s.block).mpr hb.2)
    obtain ⟨front, later, hsplit⟩ := hplace rfl
    exact ⟨⟨front, later, hsplit⟩, hinert _ front since later hsplit⟩
  refine ⟨s₀, rest₀, s₁, since, _, hcome₀.reaches, hrest₀, hstep, hsince, hnot _ (.inl rfl), hbetween,
    hj.target?_tested hm.mergeable.tests.kind hm.mergeable.tests.op hleft hright, ?_⟩
  rw [Judge.target?_branch, Judge.at?_congr (hoperand _ (.inl rfl)) (hoperand _ (.inr rfl))]
  by_cases hgeneric : c.isGeneric = true
  · rw [if_pos hgeneric, hat, hmemory hquiet (silent_of_inert (hbetween hgeneric).2)]
    rfl
  · rw [if_neg hgeneric, hj.at?_specific (by simpa using hgeneric) hat]
    rfl

/-! ## The new execution -/

/-- In a graph with the comparison in the branch: whenever control comes to the branch, it came by way of the place
where the comparison was, and the branch goes where the old one would go if the comparison had been made there. What was
evaluated in between is what was. -/
def DecidesAsBefore (h h' : FlowGraph) (m : Meaning M) (judge : Judge M) (branch : InstId) (tested c : Comparison)
    (onTrue onFalse : BlockId) : Prop :=
  ∀ s rest, Reaches h' m s → s.rest = branch :: rest → ∃ s₀ front since,
    Reaches h' m s₀ ∧ h.insts s₀.block = front ++ tested.left :: s₀.rest ∧ Since h' m s₀ since s ∧
      (c.isGeneric = true → (∃ later, h.insts s.block = front ++ tested.left :: (since ++ branch :: later)) ∧
        ∀ i ∈ since, Inert h i) ∧
      judge.target? s.values s.memory (.branch c onTrue onFalse) =
        (judge.at? c s₀.values s₀.memory).bind fun (v, μ) =>
        judge.target? (Function.update s.values tested.left (some v))
          (if c.isGeneric then μ else s.memory) (.branch tested onTrue onFalse)

namespace Merged

variable (hm : Merged h h' branch tested c onTrue onFalse)

include hm

theorem filter_eq {xs : List InstId} (hnot : tested.left ∉ xs) :
    xs.filter (h'.isPlaced ·) = xs.filter (h.isPlaced ·) := by
  refine List.filter_congr fun i hi => ?_
  have hne : i ≠ tested.left := fun heq => hnot (heq ▸ hi)
  rw [hm.gone, decide_eq_true hne, Bool.true_and]

theorem silent (hsound : h.layout.Sound) {later : List InstId}
    (hsplit : h.insts b = front ++ tested.left :: (since ++ branch :: later)) (hinert : ∀ i ∈ since, Inert h i) :
    Silent h' since := by
  intro i hi n' hn'
  obtain ⟨n, hn, hinst⟩ := hm.others.node i n' hn'
  have hne : i ≠ branch := by
    have hnodup : (front ++ tested.left :: (since ++ branch :: later)).Nodup := hsplit ▸ hsound.nodup b
    have hnodup := (List.nodup_cons.mp (List.nodup_append.mp hnodup).2.1).2
    exact (List.nodup_append.mp hnodup).2.2 i hi branch List.mem_cons_self
  rw [hinst hne]
  exact silent_of_inert hinert i hi n hn

theorem truth : ∃ n, h.nodes[tested.right.index]? = some n ∧ n.inst = .constant (.bool true) ∧
    tested.right ≠ tested.left ∧ tested.right ≠ branch := by
  obtain ⟨n, hn, htrue⟩ := hm.mergeable.tests.right
  obtain ⟨l, hl, hc, -⟩ := hm.mergeable.comparison
  obtain ⟨k, hk, hbranch⟩ := hm.before
  refine ⟨n, hn, htrue, fun heq => ?_, fun heq => ?_⟩
  · obtain rfl := Option.some_inj.mp (hn.symm.trans (heq ▸ hl))
    rw [hc] at htrue
    cases htrue
  · obtain rfl := Option.some_inj.mp (hn.symm.trans (heq ▸ hk))
    rw [hbranch] at htrue
    cases htrue

theorem place (hg : Definite g) (hs : Simplified g h) {front₀ back : List InstId}
    (hplace : g.insts b = front₀ ++ tested.left :: back) :
    h.insts b = front₀.filter (h.isPlaced ·) ++ tested.left :: back.filter (h.isPlaced ·) ∧
      (front₀ ++ [tested.left]).filter (h'.isPlaced ·) = front₀.filter (h.isPlaced ·) ∧ tested.left ∉ back := by
  have hnodup : (front₀ ++ tested.left :: back).Nodup := hplace ▸ hg.located.sound.nodup b
  have hfront : tested.left ∉ front₀ := fun h => (List.nodup_append.mp hnodup).2.2 _ h _ List.mem_cons_self rfl
  refine ⟨?_, ?_, (hg.once hplace).not_back⟩
  · rw [hs.thinned.outline.insts, hplace, List.filter_append, List.filter_cons_of_pos hm.placed]
  · rw [List.filter_append, hm.filter_eq hfront, List.filter_cons_of_neg (by simp [hm.gone]), List.filter_nil,
      List.append_nil]

end Merged

theorem decidesAsBefore (hg : Definite g) (hs : Simplified g h) (hs' : Simplified g h')
    (hm : Merged h h' branch tested c onTrue onFalse) (hj : Judges m judge) (hquiet : Quiet m) :
    DecidesAsBefore h h' m judge branch tested c onTrue onFalse := by
  intro s rest hreaches hrest
  obtain ⟨path, front, hfollows⟩ := Follows.of_reaches hreaches
  have htrace := hs'.thinned.traceable hg
  have hb : g.Reachable s.block ∧ branch ∈ h.insts s.block := by
    obtain ⟨hpath, hblock, hinsts⟩ := hfollows.sound htrace
    have hmem : branch ∈ h'.insts s.block := by simp [hinsts, hrest]
    rw [hm.insts] at hmem
    exact ⟨(hs'.thinned.reachable_iff hg).mp (hblock ▸ hpath.reachable), (List.mem_filter.mp hmem).1⟩
  have hbefore := hm.before_of_reached hg hs hb.1 hb.2
  obtain ⟨l, hl, hc, -⟩ := hm.mergeable.comparison
  obtain ⟨a, -, hcompare⟩ := hbefore.home
  obtain ⟨o, ho, hkind⟩ := hs.thinned.nodes.node tested.left l hl
  have hplain : o.inst.isTerminator = false := by
    rw [← hkind.isTerminator, hc]
    exact (Naming.Comparison.opcode_traits c).2.2
  obtain ⟨front₀, back, hplace⟩ := List.append_of_mem (hs.thinned.mem_insts hcompare)
  obtain ⟨hinsts, hfront, hback⟩ := hm.place hg hs hplace
  obtain ⟨path₀, s₀, since, hcome, hsince, hnot, hbetween⟩ :=
    hs'.thinned.passes_before hg hfollows hrest hplace ho hplain hbefore.comparison
  obtain ⟨-, hvalues, hmemory⟩ := hsince.keeps htrace hcome
  have hstood : h.insts s₀.block = front₀.filter (h.isPlaced ·) ++ tested.left :: s₀.rest := by
    obtain ⟨-, hblock, hinsts'⟩ := hcome.sound htrace
    obtain rfl : s₀.block = a := hblock
    rw [hs'.thinned.outline.insts, hplace, List.append_cons, List.filter_append, List.append_cancel_left_eq,
      hm.filter_eq hback] at hinsts'
    rw [hinsts, hinsts']
  have hgeneric (hgeneric : c.isGeneric = true) :
      (∃ later, h.insts s.block = front₀.filter (h.isPlaced ·) ++ tested.left :: (since ++ branch :: later)) ∧
        ∀ i ∈ since, Inert h i := by
    obtain ⟨hsame, hinert⟩ := hm.mergeable.between hs.thinned.outline.sound hgeneric
    obtain rfl : a = s.block := hs.thinned.outline.sound.block_unique hcompare ((hsame s.block).mpr hb.2)
    obtain ⟨between, later, hsplit, rfl⟩ := hbetween rfl
    obtain ⟨-, rfl⟩ := hg.split_unique hplace hsplit
    have hplaced : h.isPlaced branch = true := by
      have hmem := hb.2
      rw [hs.thinned.outline.insts] at hmem
      exact (List.mem_filter.mp hmem).2
    have hthere : h.insts s.block = front₀.filter (h.isPlaced ·) ++
        tested.left :: (between.filter (h'.isPlaced ·) ++ branch :: later.filter (h.isPlaced ·)) := by
      rw [hinsts, List.filter_append, List.filter_cons_of_pos hplaced,
        hm.filter_eq fun h => hback (List.mem_append_left _ h)]
    exact ⟨⟨_, hthere⟩, hinert _ _ _ _ hthere⟩
  have hoperand (d : InstId) (hd : d = c.left ∨ d = c.right) : s.values d = s₀.values d :=
    hvalues d (hnot d (.inr (hbefore.operands d hd).2))
  obtain ⟨k, hk, htrue, hne, hne'⟩ := hm.truth
  have hright : s.values tested.right = some (.constant (.bool true)) := by
    obtain ⟨k', hk', hinst⟩ := hm.others.exists_node hk
    refine constant_value hg hs'.thinned hj hfollows hrest hk' ((hinst hne').trans htrue) ?_
    refine hbefore.truth.imp_right fun ⟨hbefore, e, he⟩ => ⟨hbefore, e, ?_⟩
    rw [hm.insts]
    exact List.mem_filter.mpr ⟨he, decide_eq_true hne⟩
  have hold (v : Value) (μ : M) :
      judge.target? (Function.update s.values tested.left (some v)) μ (.branch tested onTrue onFalse) =
        some (if v.same (.bool true) then onTrue else onFalse, μ) :=
    hj.target?_tested hm.mergeable.tests.kind hm.mergeable.tests.op (Function.update_self ..)
      ((Function.update_of_ne hne ..).trans hright)
  refine ⟨s₀, _, since, hcome.reaches, hstood, hsince, hgeneric, ?_⟩
  rw [Judge.target?_branch, Judge.at?_congr (hoperand _ (.inl rfl)) (hoperand _ (.inr rfl))]
  simp only [hold]
  by_cases hcall : c.isGeneric = true
  · obtain ⟨⟨later, hthere⟩, hinert⟩ := hgeneric hcall
    rw [hmemory hquiet (hm.silent hs.thinned.outline.sound hthere hinert)]
    cases judge.at? c s₀.values s₀.memory with
    | none => rfl
    | some r => simp [hcall]
  · cases hat : judge.at? c s₀.values s₀.memory with
    | some r =>
      rw [hj.at?_specific (by simpa using hcall) hat]
      simp [hcall]
    | none =>
      cases hat' : judge.at? c s₀.values s.memory with
      | none => rfl
      | some r =>
        rw [hj.at?_specific (by simpa using hcall) hat'] at hat
        cases hat

/-! ## The pass -/

/-- Simplification is one visit after the other, and a visit that moves a comparison into a branch keeps decisions.
Nothing but the branch looked at the outcome of the comparison. Every other instruction stays what it was, and along
every path what is evaluated is what was, without the comparison: it is made once whenever the branch is executed, and
its operands are then what they were where it was made before. Recorded classes need not be right for this, since the
branch goes by the outcome being `true`, whether or not it is a truth value. -/
theorem simplify_keeps_decisions {ctx : Context} (hg : Definite g) :
    (∀ changed g', (simplify ctx).run g = .ok (changed, g') → Relation.ReflTransGen (Visits ctx.hierarchy) g g') ∧
      ∀ h h' b branch, Relation.ReflTransGen (Visits ctx.hierarchy) g h → h.Reachable b → branch ∈ h.insts b →
        h.opcode branch = .ok .branch → (simplifyInst ctx.hierarchy branch).run h = .ok (true, h') →
        ∃ tested c onTrue onFalse, Merged h h' branch tested c onTrue onFalse ∧ OnlyReads h branch tested.left ∧
          (∀ path, h'.IsPath path ↔ h.IsPath path) ∧
          (∀ path, h.IsPath path → h'.arrived path = (h.arrived path).filter (· ≠ tested.left)) ∧
          ∀ (M : Type) (m : Meaning M) (judge : Judge M), Judges m judge → Quiet m →
            DecidesAlike h m judge branch tested c onTrue onFalse ∧
            DecidesAsBefore h h' m judge branch tested c onTrue onFalse := by
  refine ⟨fun changed g' hrun => (simplify_of_ok hg).post_of_ok hrun, fun h h' b branch hvisits hb hbranch hop hrun =>
    ?_⟩
  have hs := simplified_of_visits hg hvisits
  have hb' := (hs.thinned.reachable_iff hg).mp hb
  obtain ⟨hs', hmerged⟩ := (leads_branch hop (mergeComparison_of_ok hg hs hb' hbranch hop)).post_of_ok hrun
  obtain ⟨tested, c, onTrue, onFalse, hm⟩ := hmerged rfl
  refine ⟨tested, c, onTrue, onFalse, hm, onlyReads_of_mergeable hg hs hm.mergeable, fun path => ?_, fun path hpath =>
    ?_, fun M m judge hj hquiet => ⟨decidesAlike hg hs hm hj hquiet, decidesAsBefore hg hs hs' hm hj hquiet⟩⟩
  · rw [hs.thinned.isPath_iff hg, hs'.thinned.isPath_iff hg]
  · have hpath := (hs.thinned.isPath_iff hg).mp hpath
    obtain ⟨a, -, hcompare⟩ := (hm.before_of_reached hg hs hb' hbranch).home
    have hplaced := hg.isPlaced_of_mem (hs.thinned.mem_insts hcompare)
    rw [hs.thinned.arrived_eq hg hpath, hs'.thinned.arrived_eq hg hpath, List.filter_filter]
    refine List.filter_congr fun d _ => ?_
    by_cases hd : d = tested.left
    · subst hd
      simp [hplaced, hm.gone]
    · simp [hm.gone, hd]

def counted : Judge Nat := fun c l r calls =>
  if c.kind = .strict then some (.bool (l.same r != (c.op == .neStrict)), calls)
  else l.int?.bind fun x => r.int?.bind fun y => (compareInts c.op x y).map fun answer =>
    (.bool answer, if c.isGeneric then calls + 1 else calls)

/-- What instructions give, and how many calls there were. -/
def callCounting? (σ : Values) (calls : Nat) : Inst → Option (Option Value × Nat)
  | .constant k => some (some (.constant k), calls)
  | .compare c => (counted.at? c σ calls).map fun (v, calls') => (some v, calls')
  | .binaryOp _ .bitAnd l r _ => ((σ l).bind Value.smi?).bind fun x => ((σ r).bind Value.smi?).map fun y =>
    (some (.smi (Word.and x y)), calls)
  | .goto _ | .branch .. => some (none, calls)
  | _ => none

def callCounting : Meaning Nat where
  does σ calls _ d r calls' := callCounting? σ calls d = some (r, calls')
  goes _ _ _ _ := True

theorem counted_specific {l r : Value} {calls calls' : Nat} (hc : c.isGeneric = false)
    (hv : counted c l r calls = some (v, calls')) (other : Nat) : calls' = calls ∧
    counted c l r other = some (v, other) := by
  unfold counted at *
  split at hv
  case isTrue hkind =>
    obtain ⟨rfl, rfl⟩ := Prod.mk.inj (Option.some_inj.mp hv)
    exact ⟨rfl, if_pos hkind⟩
  case isFalse hkind =>
    rw [if_neg hkind]
    simp only [hc, Bool.false_eq_true, if_false, Option.bind_eq_some_iff, Option.map_eq_some_iff, Prod.mk.injEq] at hv ⊢
    obtain ⟨x, hx, y, hy, answer, hanswer, rfl, rfl⟩ := hv
    exact ⟨rfl, x, hx, y, hy, answer, hanswer, rfl, trivial⟩

theorem judges_callCounting : Judges callCounting counted where
  compare σ calls i c r calls' hdoes := by
    obtain ⟨⟨v, calls''⟩, hv, heq⟩ := Option.map_eq_some_iff.mp hdoes
    obtain ⟨rfl, rfl⟩ := Prod.mk.inj heq
    exact ⟨v, rfl, hv⟩
  constant σ calls i k r calls' hdoes := (Prod.mk.inj (Option.some_inj.mp hdoes)).1.symm
  truth c v calls hkind hop := by
    have hne : (Token.eqStrict == Token.neStrict) = false := by decide
    simp [counted, hkind, hop, hne]
  specific c l r calls v calls' hc hv other := (counted_specific hc hv other).2

theorem quiet_callCounting : Quiet callCounting := by
  intro σ calls i d r calls' heffect hdoes
  have hdoes : callCounting? σ calls d = some (r, calls') := hdoes
  unfold callCounting? at hdoes
  split at hdoes
  case h_1 => exact (Prod.mk.inj (Option.some_inj.mp hdoes)).2.symm
  case h_2 c =>
    obtain ⟨⟨v, calls''⟩, hv, heq⟩ := Option.map_eq_some_iff.mp hdoes
    obtain ⟨-, rfl⟩ := Prod.mk.inj heq
    obtain ⟨x, -, hv⟩ := Option.bind_eq_some_iff.mp hv
    obtain ⟨y, -, hv⟩ := Option.bind_eq_some_iff.mp hv
    exact (counted_specific heffect hv 0).1
  case h_3 =>
    obtain ⟨x, -, hv⟩ := Option.bind_eq_some_iff.mp hdoes
    obtain ⟨y, -, heq⟩ := Option.map_eq_some_iff.mp hv
    exact (Prod.mk.inj heq).2.symm
  case h_4 | h_5 => exact (Prod.mk.inj (Option.some_inj.mp hdoes)).2.symm
  case h_6 => cases hdoes

def callEvaluator (g : FlowGraph) : Evaluator g callCounting where
  run := callCounting?
  does _ hrun := hrun
  jumps _ := ⟨rfl, trivial⟩
  branches _ _ := ⟨rfl, trivial⟩

/-- Calls a method to compare the parameter with ten, computes something, and tells by the outcome where to go. -/
def lessThanTen : List Command :=
  [.targetBlock, .targetBlock,
    .inst (.loadLocal 0), .inst (.constant (.smi 10)), .inst (.compare (.relational .lt ⟨0⟩ ⟨1⟩ none)),
    .inst (.loadLocal 0), .inst (.loadLocal 0), .inst (.binaryOp .binarySmiOp .bitAnd ⟨3⟩ ⟨4⟩ false),
    .branchIf ⟨2⟩ ⟨2⟩ ⟨3⟩, .appendTo ⟨2⟩, .inst (.loadLocal 0), .inst (.unary .ret ⟨8⟩),
    .appendTo ⟨3⟩, .inst (.loadLocal 0), .inst (.unary .ret ⟨10⟩)]

/-- An execution of the graph that has come so far. -/
def lessThanTenRun (g : FlowGraph) (steps : Nat) : Option (State Nat) :=
  (callEvaluator g).after? steps (startState g (fun k => .smi (k + 3)) 0)

def lessThanTenHolds (r : FlowGraph) : Bool :=
  match Ssa.construct.run r with
  | .ok (.ok (), g) =>
    match (simplifyInst Hierarchy.core ⟨7⟩).run g with
    | .ok (true, h') => decide (DefiniteSeen g) && g.reversePostorder.contains normalEntry &&
      (g.insts normalEntry).contains ⟨7⟩ &&
      (g.initialDefinitions.all fun d => (g.nodes[d.index]?).isSome) &&
      (h'.initialDefinitions.all fun d => (h'.nodes[d.index]?).isSome) &&
      ((g.nodes[7]?).any fun n => n.inst.opcode == .branch && n.inst.successors == [⟨2⟩, ⟨3⟩] &&
        n.inst.args.head? == some ⟨2⟩ &&
        (lessThanTenRun g 5).any fun s => s.rest == [⟨7⟩] && counted.target? s.values s.memory n.inst == some (⟨2⟩, 1))
        &&
      ((g.nodes[2]?).any (·.inst.hasSideEffect)) &&
      ((h'.nodes[7]?).any fun n => (lessThanTenRun h' 4).any fun s => s.rest == [⟨7⟩] && s.memory == 0 &&
        counted.target? s.values s.memory n.inst == some (⟨2⟩, 1))
    | _ => false
  | _ => false

/-- The call moves into the branch, which goes where it went. -/
theorem lessThanTen_kept : ∃ g h' tested c s s₀ s' s₀', Definite g ∧
    (simplifyInst Hierarchy.core ⟨7⟩).run g = .ok (true, h') ∧ Merged g h' ⟨7⟩ tested c ⟨2⟩ ⟨3⟩ ∧ c.isGeneric = true ∧
    (Reaches g callCounting s ∧ s.rest = [⟨7⟩] ∧
      counted.target? s.values s.memory (.branch tested ⟨2⟩ ⟨3⟩) = some (⟨2⟩, 1)) ∧
    (Reaches g callCounting s₀ ∧ s₀.rest.head? = some ⟨2⟩ ∧
      counted.target? s.values s₀.memory (.branch c ⟨2⟩ ⟨3⟩) = some (⟨2⟩, 1)) ∧
    (Reaches h' callCounting s' ∧ s'.rest = [⟨7⟩] ∧ s'.memory = 0 ∧
      counted.target? s'.values 0 (.branch c ⟨2⟩ ⟨3⟩) = some (⟨2⟩, 1)) ∧
    Reaches h' callCounting s₀' ∧ (counted.at? c s₀'.values s₀'.memory).isSome = true := by
  have hcompute :
      ((Command.script lessThanTen normalEntry (FlowGraph.new "f" 1 0)).map (lessThanTenHolds ·.2)) = some true := by
    decide +kernel
  obtain ⟨⟨b₀, r⟩, hscript, hholds⟩ := Option.map_eq_some_iff.mp hcompute
  unfold lessThanTenHolds at hholds
  split at hholds
  case h_2 => cases hholds
  case h_1 g hg =>
    split at hholds
    case h_2 => cases hholds
    case h_1 h' hrun =>
      simp only [Bool.and_eq_true, beq_iff_eq, decide_eq_true_eq, List.all_eq_true, Option.any_eq_true,
        List.contains_iff_mem] at hholds
      obtain ⟨⟨⟨⟨⟨⟨⟨hseen, horder⟩, hmem⟩, hinitial⟩, hinitial'⟩,
        n, hn, ⟨⟨hop, hsuccs⟩, hleft⟩, s, hs, hrest, htarget⟩, l, hl, hcall⟩,
        n', hn', s', hs', ⟨hrest', hmemory'⟩, htarget'⟩ := hholds
      have hd := hseen.definite
      have hs : Reaches g callCounting s := ⟨_, start_startState hinitial, Evaluator.steps_of_after hs⟩
      have hs' : Reaches h' callCounting s' := ⟨_, start_startState hinitial', Evaluator.steps_of_after hs'⟩
      have hall := (@simplify_keeps_decisions g ⟨{}, Hierarchy.core⟩ hd).2 g h' normalEntry ⟨7⟩ .refl
        (hd.reachable_of_mem_order horder) hmem (opcode_eq_ok.mpr ⟨n, hn, hop⟩)
      dsimp only at hall
      obtain ⟨tested, c, onTrue, onFalse, hm, -, -, -, hdecides⟩ := hall hrun
      obtain ⟨halike, hbefore⟩ := hdecides Nat callCounting counted judges_callCounting quiet_callCounting
      obtain ⟨o, ho, hinst⟩ := hm.before
      obtain rfl := Option.some_inj.mp (hn.symm.trans ho)
      obtain ⟨o', ho', hinst'⟩ := hm.after
      obtain rfl := Option.some_inj.mp (hn'.symm.trans ho')
      rw [hinst] at hsuccs hleft htarget
      obtain ⟨rfl, rfl⟩ : onTrue = ⟨2⟩ ∧ onFalse = ⟨3⟩ := by simpa [Inst.successors] using hsuccs
      have hleft : tested.left = ⟨2⟩ := by simpa [Inst.args] using hleft
      obtain ⟨o, ho, hc, -⟩ := hm.mergeable.comparison
      rw [hleft] at ho
      obtain rfl := Option.some_inj.mp (hl.symm.trans ho)
      replace hcall : c.isGeneric = true := by rwa [hc] at hcall
      obtain ⟨s₀, rest₀, s₁, since, target, hs₀, hrest₀, -, -, -, -, hold, hnew⟩ := halike s [] hs hrest
      obtain ⟨s₀', front, since', hs₀', -, -, -, heq⟩ := hbefore s' [] hs' hrest'
      rw [hinst', hmemory'] at htarget'
      rw [hmemory', htarget'] at heq
      rw [hold] at htarget
      rw [if_pos hcall, htarget] at hnew
      refine ⟨g, h', tested, c, s, s₀, s', s₀', hd, hrun, hm, hcall, ⟨hs, hrest, hold.trans htarget⟩,
        ⟨hs₀, by rw [hrest₀, hleft]; rfl, hnew⟩, ⟨hs', hrest', hmemory', htarget'⟩, hs₀', ?_⟩
      obtain ⟨r, hr, -⟩ := Option.bind_eq_some_iff.mp heq.symm
      rw [hr]
      rfl

end Midend.Simplify

import Midend.Builder
import Midend.Proofs.Classes.Visits
import Midend.Proofs.Consistency

/-! # Checks that class propagation takes out

A check is taken out while the classes are still being found. Afterwards the class of its input may only have
been given up: it is the one that decided the check, or it is `dynamic`. In the first case the check is still
decided the same way, in the second it was taken out too early.
-/

namespace Midend.Classes

variable {ctx : Context} {g g' : FlowGraph}

structure NoClasses (g : FlowGraph) : Prop where
  reaching : g.reaching = []
  nodes : ∀ n ∈ g.nodes, n.cls = none

theorem current_of_cls_none {n : Node} (h : n.cls = none) : current n = n.ownClass := by simp [current, h]

theorem ownClass_of_isPlain {n : Node} (h : IsPlain n.inst) : n.ownClass = n.inst.resultClass := by
  have hassert {d : Inst} (hd : d.opcode = .assertAssignable) : d.resultClass = .dynamic := by
    cases d with
    | compare c => cases hk : c.kind <;> simp [Inst.opcode, Comparison.opcode, hk] at hd
    | _ => simp_all [Inst.opcode, Inst.resultClass]
  unfold Node.ownClass
  split
  · rename_i hphi
    exact absurd hphi h.1
  · rename_i hparameter
    exact absurd hparameter h.2
  · rename_i hd
    exact (hassert hd).symm
  · rfl

def initially (g : FlowGraph) (d : InstId) : Option ClassId :=
  (g.nodes[d.index]?).bind fun n => if IsKnown (current n) then some (current n) else none

theorem initially_eq_some {d : InstId} {c : ClassId} :
    initially g d = some c ↔ ∃ n, g.nodes[d.index]? = some n ∧ IsKnown c ∧ current n = c := by
  unfold initially
  cases g.nodes[d.index]? with
  | none => simp
  | some n =>
    simp only [Option.bind_some, Option.some.injEq, exists_eq_left']
    split
    · rename_i hn
      simp only [Option.some.injEq]
      exact ⟨fun h => ⟨h ▸ hn, h⟩, fun h => h.2⟩
    · rename_i hn
      simp only [reduceCtorEq, false_iff]
      rintro ⟨hc, rfl⟩
      exact hn hc

theorem tracked_initially (hclean : g.Consistent)
    (hentry : ∀ i ∈ g.insts FlowGraph.graphEntry, g.checkUses i = .ok []) (hfresh : NoClasses g) :
    Tracked ctx g (initially g) g := by
  have hown {d : InstId} {n : Node} (hn : g.nodes[d.index]? = some n) : current n = n.ownClass :=
    current_of_cls_none (hfresh.nodes n (Array.mem_of_getElem? hn))
  refine ⟨hfresh.reaching, ?_, ?_, ?_, ?_, ?_, ?_⟩
  · intro d n hn hknown
    exact initially_eq_some.mpr ⟨n, hn, hknown, rfl⟩
  · intro d c hd
    obtain ⟨n, hn, hknown, rfl⟩ := initially_eq_some.mp hd
    exact ⟨hknown, n, hn, .inl rfl⟩
  · intro d c n hd hn hphi
    obtain ⟨n', hn', hknown, rfl⟩ := initially_eq_some.mp hd
    obtain rfl : n = n' := by simpa [hn] using hn'
    have hplain : IsPlain n.inst := by
      rw [hown hn] at hknown
      constructor <;> intro hop <;> simp [Node.ownClass, hop, IsKnown] at hknown
    have hcls : current n = n.inst.resultClass := by rw [hown hn, ownClass_of_isPlain hplain]
    rw [hcls] at hknown ⊢
    exact ((resultClass_eq_fixedClass_or n.inst).resolve_right hknown.1).symm
  · intro d c n hd hn halive
    obtain ⟨n', hn', hknown, rfl⟩ := initially_eq_some.mp hd
    obtain rfl : n = n' := by simpa [hn] using hn'
    have hphi := Inst.opcode_of_isPhi (Inst.isPhi_of_isAlivePhi halive)
    rw [hown hn, Node.ownClass, hphi] at hknown
    exact absurd rfl hknown.2
  · intro d n hn hplain
    rw [hown hn, ownClass_of_isPlain hplain]
  · intro b hb i hi n hn u hu
    have hsound : ∃ n, g.nodes[i.index]? = some n ∧ ∀ u ∈ n.inputUses, FlowGraph.UseHolds g i u := by
      by_cases hbe : b = FlowGraph.graphEntry
      · exact FlowGraph.checkUses_eq_nil_iff.mp (hentry i (hbe ▸ hi))
      · obtain ⟨last, -, hinsts⟩ := ((FlowGraph.consistent_iff.mp hclean).blocks b hb).insts hbe
        obtain ⟨n, hn, hinst⟩ := hinsts i hi
        exact ⟨n, hn, hinst.operands.uses⟩
    obtain ⟨n', hn', huses⟩ := hsound
    obtain rfl : n = n' := by simpa [hn] using hn'
    obtain ⟨m, hm, hu⟩ := huses u hu
    exact ⟨m, hm, hu.imp_right And.right⟩

/-! ## The moment of a removal -/

/-- The moment at which a run from `g` to `g'` takes a check out. -/
structure Removal (ctx : Context) (g g' : FlowGraph) (i : InstId) where
  before : FlowGraph
  after : FlowGraph
  check : Inst
  /-- The class of the input at that moment. -/
  cls : ClassId
  verdict : Verdict
  listed : ∃ b ∈ g.reversePostorder, i ∈ g.insts b
  visits_before : Visits ctx g g before
  taken : Taken ctx.hierarchy before after i check cls verdict
  visits_after : Visits ctx g after g'

/-- What the classes of a graph say about a check, in its place or gone. -/
def verdict? (h : Hierarchy) (g : FlowGraph) (i : InstId) : Except Fault (Option Verdict) := do
  return (← knownClass? g i).bind (outcome? h (← g.inst i))

theorem exists_removal {i : InstId} (hrun : Visits ctx g g g') (hin : g.isPlaced i = true)
    (hout : g'.isPlaced i = false) : Nonempty (Removal ctx g g' i) := by
  induction hrun with
  | refl => simp [hin] at hout
  | @tail g₁ g₂ hrun hvisit ih =>
    cases hplaced : g₁.isPlaced i with
    | false =>
      obtain ⟨r⟩ := ih hplaced
      exact ⟨{ r with visits_after := r.visits_after.tail hvisit }⟩
    | true =>
      obtain ⟨hlisted, check, cls, v, htaken⟩ := hvisit.drops.2 i hplaced hout
      exact ⟨⟨g₁, g₂, check, cls, v, hlisted, hrun, htaken, .refl⟩⟩

/-- In the final graph the check still has an input, whose class is the one that decided it or was given up. -/
theorem Removal.keeps {i : InstId} {κ : InstId → Option ClassId} (hstart : Tracked ctx g κ g)
    (r : Removal ctx g g' i) : IsKnown r.cls ∧ g'.reaching = [] ∧
      ∃ d x n, g'.inst i = .ok d ∧ (∀ c, outcome? ctx.hierarchy d c = outcome? ctx.hierarchy r.check c) ∧
        g'.arg i 0 = .ok x ∧ g'.nodes[x.index]? = some n ∧ OrDynamic r.cls (current n) ∧
        (IsPlain n.inst → current n = r.cls) := by
  obtain ⟨b, hb, hi⟩ := r.listed
  obtain ⟨κ₁, -, h₁⟩ := Visits.tracked r.visits_before hstart
  obtain ⟨hknown, d, hd, hclass⟩ := knownClass?_eq_ok h₁.reaching r.taken.known
  obtain ⟨κ₂, -, h₂, f, x, hretired, harg, hκ₂⟩ :=
    (enact_spec h₁ hb hi r.taken.inst hd hknown hclass r.taken.decided).post_of_ok r.taken.enacted
  obtain ⟨κ₃, hext, h₃⟩ := Visits.tracked r.visits_after h₂
  have hfinal := Visits.retired r.visits_after hretired
  have hκ₃ : κ₃ x = some r.cls := hext x r.cls hκ₂
  obtain ⟨-, n, hn, hkeeps⟩ := h₃.keeps x r.cls hκ₃
  refine ⟨hknown, h₃.reaching, _, x, n, hfinal.inst, fun c => outcome?_mapArgs f, ?_, hn, hkeeps,
    fun hplain => ?_⟩
  · obtain ⟨m, hm, hinst⟩ := FlowGraph.inst_eq_ok.mp hfinal.inst
    exact FlowGraph.arg_eq_ok.mpr ⟨m, hm, hinst ▸ harg⟩
  · have hphi : n.inst.isPhi = false := by
      by_contra h
      exact hplain.1 (Inst.opcode_of_isPhi (by simpa using h))
    have hfixed : fixedClass ctx g.owner n.inst = r.cls := h₃.fixed x r.cls n hκ₃ hn hphi
    rw [h₃.plain x n hn hplain, ← fixedClass_of_isPlain hplain, hfixed]

/-- A check that was taken out is still decided the same way exactly if the class of its input was not given
up. This is never in doubt where the class of the input depends on nothing else. -/
theorem removal_justified_iff {changed : Bool} (hclean : g.Consistent)
    (hentry : ∀ i ∈ g.insts FlowGraph.graphEntry, g.checkUses i = .ok []) (hfresh : NoClasses g)
    (hrun : propagateClasses ctx g = .ok (changed, g')) :
    (∀ i, g.isPlaced i = true → g'.isPlaced i = false → Nonempty (Removal ctx g g' i)) ∧
    ∀ i (r : Removal ctx g g' i),
      (verdict? ctx.hierarchy g' i = .ok (some r.verdict) ↔ g'.useClass i 0 ≠ .ok .dynamic) ∧
      ∀ d n, g'.arg i 0 = .ok d → g'.nodes[d.index]? = some n → IsPlain n.inst →
        verdict? ctx.hierarchy g' i = .ok (some r.verdict) := by
  have hstart : Tracked ctx g (initially g) g := tracked_initially hclean hentry hfresh
  have hreached := propagateClasses_reached.post_of_ok hrun
  refine ⟨fun i hin hout => exists_removal hreached.visits hin hout, fun i r => ?_⟩
  obtain ⟨hknown, hreaching, d, x, n, hd, houtcome, hx, hn, hkeeps, hplain⟩ := r.keeps hstart
  have huse : g'.useClass i 0 = .ok (current n) := by
    have hclass : g'.classOf x = .ok (current n) := classOf_eq_ok.mpr ⟨n, hn, rfl⟩
    simp [FlowGraph.useClass, FlowGraph.reachingClass?, hreaching, hx, hclass, bind, Except.bind]
  have hsame (h : current n = r.cls) : verdict? ctx.hierarchy g' i = .ok (some r.verdict) := by
    have hc : ¬ (r.cls = .dynamic ∨ r.cls = .illegal) := fun hc => hc.elim hknown.1 hknown.2
    simp [verdict?, knownClass?, huse, h, hc, hd, houtcome, r.taken.decided, bind, Except.bind, pure,
      Except.pure]
  refine ⟨⟨fun hv hdynamic => ?_, fun h => ?_⟩, fun y m hy hm hm' => ?_⟩
  · simp [verdict?, knownClass?, hdynamic, hd, bind, Except.bind, pure, Except.pure] at hv
  · rw [huse] at h
    exact hsame (hkeeps.resolve_right fun hd => h (congrArg _ hd))
  · obtain rfl : x = y := by simpa [hx] using hy
    obtain rfl : n = m := by simpa [hn] using hm
    exact hsame (hplain hm')

/-! ## A check that goes too early -/

/-- A loop that may exchange a small integer for a double, with a check for integers at its header. On the first
round the phi of the header only sees the integer. -/
def wideningLoop : Build Unit := do
  let header ← Build.joinBlock
  let body ← Build.targetBlock
  let exit ← Build.targetBlock
  let widen ← Build.targetBlock
  let stay ← Build.targetBlock
  let latch ← Build.joinBlock
  discard <| Build.storeLocal 1 (← Build.smi 0)
  discard <| Build.goto header
  Build.appendTo header
  discard <| Build.inst (.assertAssignable .int (← Build.loadLocal 1))
  discard <| Build.branchIf (← Build.loadLocal 0) body exit
  Build.appendTo body
  discard <| Build.branchIf (← Build.loadLocal 0) widen stay
  Build.appendTo widen
  discard <| Build.storeLocal 1 (← Build.constant (.double ⟨0x3ff0000000000000⟩))
  discard <| Build.goto latch
  Build.appendTo stay
  discard <| Build.goto latch
  Build.appendTo latch
  discard <| Build.goto header
  Build.appendTo exit
  discard <| Build.returnValue (← Build.loadLocal 1)

/-- The SSA form of the loop, and what class propagation makes of it. -/
structure WideningRun (g g' : FlowGraph) : Prop where
  built : ∃ raw, wideningLoop.run (FlowGraph.new "f" 1 1) = .ok ((), raw) ∧
    Ssa.construct.run raw = .ok (.ok (), g)
  clean : g.Consistent
  entry : ∀ i ∈ g.insts FlowGraph.graphEntry, g.checkUses i = .ok []
  fresh : NoClasses g
  run : ∃ changed, propagateClasses {} g = .ok (changed, g')
  placed : g.isPlaced ⟨4⟩ = true
  gone : g'.isPlaced ⟨4⟩ = false
  undecided : verdict? .core g' ⟨4⟩ = .ok none

def wideningRunHolds : Except Fault Bool := do
  let ((), raw) ← wideningLoop.run (FlowGraph.new "f" 1 1)
  let (result, g) ← Ssa.construct.run raw
  let (_, g') ← propagateClasses {} g
  return result.isOk && (← g.check).isEmpty && (g.insts FlowGraph.graphEntry).isEmpty && g.reaching.isEmpty &&
    g.nodes.all (·.cls.isNone) && g.isPlaced ⟨4⟩ && !g'.isPlaced ⟨4⟩ && (← verdict? .core g' ⟨4⟩).isNone

theorem exists_wideningRun : ∃ g g', WideningRun g g' := by
  have hholds : wideningRunHolds = .ok true := by
    have h : wideningRunHolds.toOption = some true := by decide +kernel
    cases hrun : wideningRunHolds with
    | error e => simp [hrun, Except.toOption] at h
    | ok b => simpa [hrun, Except.toOption] using h
  simp only [wideningRunHolds, bind_eq_ok, pure_eq_ok, Bool.and_eq_true, List.isEmpty_iff, Bool.not_eq_true',
    Option.isNone_iff_eq_none, Array.all_eq_true_iff_forall_mem] at hholds
  obtain ⟨⟨⟨⟩, raw⟩, hraw, ⟨result, g⟩, hg, ⟨changed, g'⟩, hg', found, hfound, v, hv, hall⟩ := hholds
  obtain ⟨⟨⟨⟨⟨⟨⟨hok, rfl⟩, hentry⟩, hreaching⟩, hcls⟩, hplaced⟩, hgone⟩, rfl⟩ := hall
  have hresult : result = .ok () := by cases result <;> simp_all [Except.isOk, Except.toBool]
  exact ⟨g, g', ⟨raw, hraw, hresult ▸ hg⟩, hfound, by simp [hentry], ⟨hreaching, hcls⟩, ⟨changed, hg'⟩, hplaced,
    hgone, hv⟩

/-- Here a check is taken out that the final classes do not decide. -/
theorem wideningLoop_not_justified : ∃ g g', WideningRun g g' ∧ ∃ r : Removal {} g g' ⟨4⟩,
    verdict? .core g' ⟨4⟩ ≠ .ok (some r.verdict) := by
  obtain ⟨g, g', h⟩ := exists_wideningRun
  obtain ⟨changed, hrun⟩ := h.run
  obtain ⟨r⟩ := exists_removal (propagateClasses_reached.post_of_ok hrun).visits h.placed h.gone
  exact ⟨g, g', h, r, by simp [h.undecided]⟩

/-- The loop meets what `removal_justified_iff` asks for, and its check has lost the class that decided it. -/
theorem wideningLoop_loses_class : ∃ g g', WideningRun g g' ∧ g'.useClass ⟨4⟩ 0 = .ok .dynamic := by
  obtain ⟨g, g', h⟩ := exists_wideningRun
  obtain ⟨changed, hrun⟩ := h.run
  obtain ⟨hexists, hiff⟩ := removal_justified_iff h.clean h.entry h.fresh hrun
  obtain ⟨r⟩ := hexists ⟨4⟩ h.placed h.gone
  refine ⟨g, g', h, ?_⟩
  by_contra hne
  have hdecided := (hiff ⟨4⟩ r).1.mpr hne
  simp [h.undecided] at hdecided

end Midend.Classes

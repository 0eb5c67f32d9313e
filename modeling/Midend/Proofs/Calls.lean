import Midend.Pipeline
import Midend.Proofs.Builder
import Midend.Proofs.Graph.Code
import Midend.Proofs.Ssa.Construct

/-! # Calls that lose their pushed arguments

A call refers to the pushes of its arguments, but the use lists do not know of that. A call that becomes another
instruction takes its pushes along. Another call that shares one of them is left with a push that is in no block,
and the value that was pushed is not kept for it any more. So there are stages that spoil a graph.
-/

namespace Midend

/-- Each use is on its list once, and the lists have the uses that they would have if they were found again. -/
def FlowGraph.ListsUses (g : FlowGraph) : Prop :=
  ∀ g', Edit.computeUseLists.run g = .ok ((), g') → ∀ (d : InstId) (n n' : Node), g.nodes[d.index]? = some n →
    g'.nodes[d.index]? = some n' → n.inputUses.Nodup ∧ n.envUses.Nodup ∧ (∀ u, u ∈ n.inputUses ↔ u ∈ n'.inputUses) ∧
      ∀ u, u ∈ n.envUses ↔ u ∈ n'.envUses

namespace Calls

variable {g g' g'' : FlowGraph} {i j call new : InstId} {d : Inst} {n : Node}

def argumentsOf (g : FlowGraph) (i : InstId) : Option (List InstId) := (g.nodes[i.index]?).map (·.inst.arguments)

/-- What instructions in a block refer to as pushed is in a block too. -/
def PushesPlaced (g : FlowGraph) : Prop :=
  ∀ j as, (g.layout.home? j).isSome = true → argumentsOf g j = some as →
    ∀ p ∈ as, (g.layout.home? p).isSome = true

theorem argumentsOf_eq (g : FlowGraph) (i : InstId) : argumentsOf g i = (g.codeOf i).map Inst.arguments := by
  simp [argumentsOf, FlowGraph.codeOf, Function.comp_def, Inst.arguments_bare]

/-! ## Replacing a call -/

/-- The graph with `new` in the place of `call`, and without the pushes `ps`. -/
structure Replaced (g : FlowGraph) (call new : InstId) (d : Inst) (ps : List InstId) (g' : FlowGraph) : Prop where
  fresh : g.codeOf new = none
  free : g.layout.home? new = none
  home : ∀ j, g'.layout.home? j =
    if j = call ∨ j ∈ ps then none else if j = new then g.layout.home? call else g.layout.home? j
  code : ∀ j, g'.codeOf j = if j = new then some d.bare else g.codeOf j

theorem Replaced.arguments {ps : List InstId} (h : Replaced g call new d ps g') (j : InstId) :
    argumentsOf g' j = if j = new then some d.arguments else argumentsOf g j := by
  rw [argumentsOf_eq, argumentsOf_eq, h.code]
  split
  · rw [Option.map_some, Inst.arguments_bare]
  · rfl

theorem leads_removePushes {ps qs : List InstId} (h : Replaced g call new d qs g') :
    Leads True g' (removePushes ps) fun _ g'' => Replaced g call new d (qs ++ ps) g'' := by
  unfold removePushes
  refine Leads.forM (fun done => Replaced g call new d (qs ++ done)) (by simpa using h) fun done p rest g₁ _ h₁ => ?_
  rw [Leads.bind_iff, Leads.get_iff, Leads.bind_iff, Leads.lift_iff]
  refine Yields.of_ok fun value _ => ?_
  rw [Leads.bind_iff]
  refine Leads.code_replaceUses.mono fun _ g₂ h₂ => Leads.code_remove.mono ?_
  rintro _ g₃ ⟨b, -, h₃⟩
  refine ⟨h₁.fresh, h₁.free, fun j => ?_, fun j => ?_⟩
  · rw [h₃.layout, FlowGraph.layout_withLayout, Layout.home?_unplace, h₂.layout, h₁.home]
    by_cases hj : j = p
    · simp [hj]
    · simp [hj]
  · exact ((h₃.code j).trans (h₂.code j)).trans (h₁.code j)

theorem leads_replaceCall (hn : g.nodes[call.index]? = some n) : Leads True g (replaceCall call d) fun new g' =>
    Replaced g call new d n.inst.arguments g' := by
  unfold replaceCall Edit.replaceInst
  rw [Leads.bind_iff, Leads.get_iff, Leads.bind_iff, Leads.lift_iff, FlowGraph.inst_eq_ok.mpr ⟨n, hn, rfl⟩,
    Yields.ok_iff, Leads.bind_iff, Leads.addInst_iff, Leads.bind_iff, Leads.bind_iff]
  refine FlowGraph.SameCode.frame.copyDeoptTarget.mono fun _ g₁ h₁ => ?_
  rw [Leads.bind_iff]
  refine Leads.code_insertBefore.mono ?_
  rintro _ g₂ ⟨b, hb, hfree, h₂⟩
  rw [Leads.bind_iff]
  refine FlowGraph.SameCode.frame.ensureSsaIndex.mono fun _ g₃ h₃ => ?_
  rw [Leads.bind_iff]
  refine Leads.code_replaceUses.mono fun _ g₄ h₄ => Leads.code_remove.mono ?_
  rintro _ g₅ ⟨c, -, h₅⟩
  have hlayout₁ : g₁.layout = g.layout := h₁.layout
  have hsame := (h₂.trans h₃).trans h₄
  have hreplaced : Replaced g call g.nextId d [] g₅ := by
    refine ⟨by simp [FlowGraph.codeOf, FlowGraph.nextId], hlayout₁ ▸ hfree, fun j => ?_, fun j => ?_⟩
    · rw [h₅.layout, FlowGraph.layout_withLayout, Layout.home?_unplace, hsame.layout, FlowGraph.layout_withLayout,
        Layout.home?_place, hlayout₁, ← hb, hlayout₁]
      simp
    · rw [(h₅.code j).trans ((hsame.code j).trans (h₁.code j)), FlowGraph.codeOf, FlowGraph.nodes_withInst]
      split <;> rfl
  rw [Leads.bind_iff]
  exact (leads_removePushes hreplaced).mono fun _ _ h => h

/-- Where all pushes were in place, a call can be replaced without harm if and only if no other instruction that
stays refers to what goes away with it. -/
theorem replaceCall_keeps_pushes_iff (hplaced : PushesPlaced g) (hn : g.nodes[call.index]? = some n)
    (hd : d.arguments = []) (hrun : (replaceCall call d).run g = .ok (new, g')) :
    PushesPlaced g' ↔ ∀ j m, (g.layout.home? j).isSome = true → g.nodes[j.index]? = some m → j ≠ call →
      j ∉ n.inst.arguments → ∀ p ∈ m.inst.arguments, p ≠ call ∧ p ∉ n.inst.arguments := by
  have h : Replaced g call new d n.inst.arguments g' := (leads_replaceCall hn).post_of_ok hrun
  have hnew : ∀ p, (g.layout.home? p).isSome = true → p ≠ new := by
    rintro p hp rfl
    simp [h.free] at hp
  constructor
  · intro hplaced' j m hj hm hcall hpush p hp
    have hne : j ≠ new := hnew j hj
    have harguments : argumentsOf g j = some m.inst.arguments := by rw [argumentsOf, hm, Option.map_some]
    have hj' : (g'.layout.home? j).isSome = true := by
      rw [h.home, if_neg (by simp [hcall, hpush]), if_neg hne]
      exact hj
    have hp' := hplaced' j m.inst.arguments hj' (by rw [h.arguments, if_neg hne, harguments]) p hp
    rw [h.home] at hp'
    split at hp'
    · cases hp'
    case isFalse hstays => simpa using hstays
  · intro hshared j as hj has p hp
    rw [h.home] at hj
    split at hj
    · cases hj
    case isFalse hstays =>
      obtain ⟨hcall, hpush⟩ := not_or.mp hstays
      rw [h.arguments] at has
      by_cases hne : j = new
      · rw [if_pos hne, hd, Option.some_inj] at has
        simp [← has] at hp
      · rw [if_neg hne] at hj has
        obtain ⟨m, hm, rfl⟩ := Option.map_eq_some_iff.mp has
        have hpg := hplaced j m.inst.arguments hj has p hp
        obtain ⟨hp₁, hp₂⟩ := hshared j m hj hm hcall hpush p hp
        rw [h.home, if_neg (by simp [hp₁, hp₂]), if_neg (hnew p hpg)]
        exact hpg

/-! ## Two calls that share a push -/

/-- Reads a field twice and pushes what the second read gave. One branch takes the square root of it, the other one
calls its operator `[]`. -/
def sharedPush : List Command :=
  [.targetBlock, .targetBlock,
    .inst (.loadLocal 0), .inst (.loadField 16 .array .unknown false ⟨0⟩), .inst (.storeLocal 1 ⟨1⟩),
    .inst (.loadLocal 0), .inst (.loadField 16 .array .unknown false ⟨3⟩), .pushArgument ⟨4⟩,
    .inst (.loadLocal 0), .branchIf ⟨6⟩ ⟨2⟩ ⟨3⟩,
    .appendTo ⟨2⟩, .inst (.staticCall ⟨126⟩ [⟨5⟩] .dynamic), .inst (.unary .ret ⟨9⟩),
    .appendTo ⟨3⟩,
    .inst (.instanceCall ⟨"[]", .illegal, [⟨5⟩], some { selector := "[]", tested := 1 }, 1⟩),
    .inst (.unary .ret ⟨11⟩)]

/-- The stages that run on it: one takes the push away, one the value that was pushed, and one tests that value. -/
def spoilingStages : List (Context × Stage) := [({}, .specialize), ({}, .eliminateLoads), ({}, .applyClasses)]

/-- The constructed graph is fine, and the stages spoil it. -/
def isSpoiled (r : FlowGraph) : Bool :=
  match Ssa.construct.run r with
  | .ok (.ok (), g) =>
    match (spoilingStages.forM fun s => discard (s.2.run s.1) : Edit Unit).run g with
    | .ok ((), g') =>
      r.nodes.all (·.inst.opcode != .constraint) && g.check.toOption == some [] && decide g.SingleEntry &&
        g'.check.toOption != some []
    | _ => false
  | _ => false

/-- Stages need not leave a graph in which nothing is wrong, even if construction made such a graph for them. -/
theorem sharedPush_spoiled : ¬ ∀ (b₀ : BlockId) (r g g' : FlowGraph) (stages : List (Context × Stage)), Built b₀ r →
    (∀ n ∈ r.nodes, n.inst.opcode ≠ .constraint) → Ssa.construct.run r = .ok (.ok (), g) → g.Consistent →
      g.SingleEntry → (stages.forM fun s => discard (s.2.run s.1) : Edit Unit).run g = .ok ((), g') →
        g'.Consistent ∧ g'.ListsUses := by
  intro h
  have hcompute : ((Command.script sharedPush FlowGraph.normalEntry (FlowGraph.new "f" 1 1)).map (isSpoiled ·.2)) =
      some true := by decide +kernel
  obtain ⟨⟨b₀, r⟩, hscript, hspoiled⟩ := Option.map_eq_some_iff.mp hcompute
  have hstart : Built FlowGraph.normalEntry (FlowGraph.new "f" 1 1) := @Built.start "f" 1 1 none (by decide)
  unfold isSpoiled at hspoiled
  split at hspoiled
  case h_2 => cases hspoiled
  case h_1 g hg =>
    split at hspoiled
    case h_2 => cases hspoiled
    case h_1 g' hg' =>
      simp only [Bool.and_eq_true, Array.all_eq_true_iff_forall_mem, beq_iff_eq, bne_iff_ne, decide_eq_true_eq]
        at hspoiled
      obtain ⟨⟨⟨hfree, hclean⟩, hsingle⟩, hunclean⟩ := hspoiled
      obtain ⟨hclean', -⟩ := h b₀ r g g' spoilingStages (hstart.script hscript) hfree hg
        (FlowGraph.consistent_iff_computed.mpr hclean) hsingle hg'
      exact hunclean (FlowGraph.consistent_iff_computed.mp hclean')

end Calls

end Midend

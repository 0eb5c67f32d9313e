import Midend.Proofs.Ssa.Construct
import Midend.Proofs.Ssa.Stack

/-! # Why construction gives up at an instruction

Renaming compares the operands of each instruction with what lies on the expression stack. It only gives up at an
instruction that does not find its operands there.
-/

namespace Midend.Ssa

open Midend.Flow

/-- The reason to give up is that the instruction `x` does not find an operand on top of the stack. -/
inductive Mismatch (x : InstId) : Bailout → Prop where
  | input (k : Nat) (a v : InstId) : Mismatch x (.malformedGraph (.inputMismatch k x a v))
  | argument (a v : InstId) : Mismatch x (.malformedGraph (.argumentMismatch x a v))

theorem Mismatch.inst_eq {x y : InstId} {d : Bailout} (hx : Mismatch x d) (hy : Mismatch y d) : x = y := by
  cases hx <;> cases hy <;> rfl

variable {α β : Type} {x i : InstId} {r g₀ g : FlowGraph} {t : Tour} {H : List InstId} {s : Names} {b : BlockId}
  {f rest init : Frame} {n : Node} {outs stack : List (BlockId × Frame)} {ops ops' : List InstId}

/-! ## Runs that do not give up at an instruction -/

/-- No reason to give up, or not that of a mismatch at `x`. -/
def Elsewhere (x : InstId) (d : Bailout) : Prop := ¬ Mismatch x d

/-! ## Popping operands -/

theorem not_mismatch_underflow : ¬ Mismatch x (.stackUnderflow b) := nofun

theorem passes_pop {slots : Nat} : Renames True (Elsewhere x) g s (pop slots b f) fun r s' g' => s = s' ∧ g = g' ∧
    f = r.2 ++ [r.1] := by
  refine (Renames.with_bail renames_pop ?_).mono fun _ _ _ h => ⟨h.1, h.2.1, h.2.2.1⟩
  unfold pop
  split
  · split
    · rw [Renames.bind_iff, Renames.throwThe_iff]
      exact not_mismatch_underflow
    · trivial
  · exact not_mismatch_underflow

theorem passes_popInput {k : Nat} (h : i ≠ x ∨ ∃ rest a v, f = rest ++ [v] ∧ g.arg i k = .ok a ∧
    ∀ op, g.opcode a = .ok op →
      (if op == .loadLocal || op == .storeLocal then s.resolved.lookup a else some a) = some v) :
    Renames True (Elsewhere x) g s (popInput b i f k) fun _ _ _ => True := by
  unfold popInput
  rw [Renames.bind_iff, Renames.getThe_iff, Renames.bind_iff]
  refine .read fun slots _ => ?_
  rw [Renames.bind_iff]
  refine passes_pop.mono ?_
  rintro ⟨v, f'⟩ _ _ ⟨rfl, rfl, rfl⟩
  rw [Renames.bind_iff]
  refine .read fun a ha => ?_
  rw [Renames.bind_iff]
  refine .read fun op hop => ?_
  rw [Renames.bind_iff, Renames.get_iff]
  by_cases hexpected : (if op == .loadLocal || op == .storeLocal then s.resolved.lookup a else some a) = some v
  · simp only [hexpected, ne_eq, not_true_eq_false, if_false]
    split
    · split
      · simp only [Renames.bind_iff]
        exact .lift fun _ _ => .lift fun _ _ => trivial
      · simp only [Renames.bind_iff]
        exact .lift fun _ _ => trivial
    · trivial
  · simp only [hexpected, ne_eq, not_false_eq_true, if_true]
    rw [Renames.bind_iff, Renames.renameGiveUp_iff]
    obtain hix | ⟨rest, a', v', hf, ha', hmatch⟩ := h
    · exact fun hx => hix ((Mismatch.input k a v).inst_eq hx)
    · obtain rfl : a = a' := Except.ok.inj (ha.symm.trans ha')
      obtain rfl : v = v' := by simpa using (List.append_inj' hf rfl).2
      exact absurd (hmatch op hop) hexpected

theorem passes_popArgument {a : InstId} (h : i ≠ x ∨ ∃ rest, f = rest ++ [a]) :
    Renames True (Elsewhere x) g s (popArgument b i f a) fun f' _ _ => f = f' ++ [a] := by
  unfold popArgument
  rw [Renames.bind_iff, Renames.getThe_iff, Renames.bind_iff]
  refine .read fun slots _ => ?_
  rw [Renames.bind_iff]
  refine passes_pop.mono ?_
  rintro ⟨v, f'⟩ _ _ ⟨rfl, rfl, rfl⟩
  simp only
  split
  case isTrue hne =>
    rw [Renames.bind_iff, Renames.renameGiveUp_iff]
    obtain hix | ⟨rest, hf⟩ := h
    · exact fun hx => hix ((Mismatch.argument a v).inst_eq hx)
    · exact absurd (by simpa using (List.append_inj' hf rfl).2) hne
  case isFalse hv => exact congrArg (f' ++ [·]) (not_not.mp hv)

/-! ## One instruction -/

theorem passes_leaveLocal {v : InstId} {isUsed : Bool} :
    Renames True (Elsewhere x) g s (leaveLocal i v isUsed f) fun _ _ _ => True := by
  unfold leaveLocal
  rw [Renames.bind_iff, Renames.modify_iff]
  split
  · trivial
  · rw [Renames.bind_iff]
    exact .lift fun _ _ => trivial

theorem passes_leaveResult : Renames True (Elsewhere x) g s (leaveResult i f) fun _ _ _ => True := by
  unfold leaveResult
  rw [Renames.bind_iff, Renames.getThe_iff, Renames.bind_iff]
  refine .read fun n _ => ?_
  split
  · rw [Renames.bind_iff]
    refine .read fun slots _ => ?_
    split
    · rw [Renames.bind_iff, Renames.throwThe_iff]
      exact nofun
    · rw [Renames.bind_iff]
      exact .read fun _ _ => passes_leaveLocal
  · rw [Renames.bind_iff]
    refine .read fun slots _ => ?_
    split
    · rw [Renames.bind_iff, Renames.throwThe_iff]
      exact nofun
    · simp only [Renames.bind_iff]
      refine .read fun _ _ => .read fun _ _ => .read fun _ _ => ?_
      split
      · simp only [Renames.bind_iff]
        exact .lift fun _ _ => passes_leaveLocal
      · exact passes_leaveLocal
  · split
    · trivial
    · split
      · rw [Renames.bind_iff, Renames.discard_iff]
        exact .lift fun _ _ => trivial
      · trivial

theorem passes_attachEnv {c : Bool} {m : Rename α} {post : α → Names → FlowGraph → Prop}
    (h : ∀ g', (c = false ∧ g' = g ∨ c = true ∧ attachEnv i f g = .ok ((), g')) →
    Renames True (Elsewhere x) g' s m post) : Renames True (Elsewhere x) g s (do
      if c then attachEnv i f
      m) post := by
  cases c with
  | false => exact h g (.inl ⟨rfl, rfl⟩)
  | true =>
    simp only [if_true, Renames.bind_iff, Renames.lift_iff]
    exact Leads.of_ok fun _ g' hrun => h g' (.inr ⟨rfl, hrun⟩)

theorem passes_renameInst (h : ∀ d g', g.inst i = .ok d →
      ((d.canDeoptimize || d.opcode == .goto) = false ∧ g' = g ∨
        (d.canDeoptimize || d.opcode == .goto) = true ∧ attachEnv i f g = .ok ((), g')) →
      Renames True (Elsewhere x) g' s ((List.range d.args.length).reverse.foldlM (popInput b i) f) fun f' s' g'' =>
        Renames True (Elsewhere x) g'' s' (d.arguments.reverse.foldlM (popArgument b i) f') fun _ _ _ => True) :
    Renames True (Elsewhere x) g s (renameInst b f i) fun _ _ _ => True := by
  unfold renameInst
  rw [Renames.bind_iff, Renames.getThe_iff, Renames.bind_iff]
  refine .read fun d hd => ?_
  refine passes_attachEnv fun g₁ hg₁ => ?_
  rw [Renames.bind_iff]
  refine (h d g₁ hd hg₁).mono fun f' s' g' hpops => ?_
  rw [Renames.bind_iff]
  refine hpops.mono fun f'' s'' g'' _ => ?_
  split
  · rw [Renames.bind_iff, Renames.getThe_iff, Renames.bind_iff]
    exact .read fun e _ => passes_attachEnv fun _ _ => passes_leaveResult
  · exact passes_leaveResult

theorem passes_other (hix : i ≠ x) : Renames True (Elsewhere x) g s (renameInst b f i) fun _ _ _ => True :=
  passes_renameInst fun _ _ _ _ =>
    (Renames.foldlM_of_forall fun _ _ _ _ _ => passes_popInput (.inl hix)).mono fun _ _ _ _ =>
      Renames.foldlM_of_forall fun _ _ _ _ _ => (passes_popArgument (.inl hix)).mono fun _ _ _ _ => trivial

theorem expected_eq (h : Base r t g₀) (hp : Progress r g₀ H g) {a : InstId} (ha : a.index < r.nodes.size) {op : Opcode}
    (hop : g.opcode a = .ok op) :
    (if op == .loadLocal || op == .storeLocal then s.resolved.lookup a else some a) = resolve r s a := by
  have hnode : r.nodes[a.index]? = some r.nodes[a.index] := Array.getElem?_eq_getElem ha
  obtain ⟨m, hm, hev⟩ := hp.nodes a _ (h.old a _ hnode)
  obtain rfl : r.nodes[a.index].inst.opcode = op := by
    simpa [FlowGraph.opcode_eq_ok.mpr ⟨m, hm, hev.opcode⟩] using hop
  rw [resolve, isLocalIn_eq hnode]
  rfl

theorem passes_popInputs (h : Base r t g₀) (hp : Progress r g₀ (x :: H) g) (hx : x ∉ H)
    (hbuilt : r.nodes[x.index]? = some n) (hresolved : ∀ a v, s.resolved.lookup a = some v → a ∈ H) {k : Nat}
    (hk : k ≤ n.inst.args.length) {m : Node} (hm : g.nodes[x.index]? = some m)
    (hsame : ∀ j < k, m.inst.args[j]? = n.inst.args[j]?) {vs : Frame} (hf : f = rest ++ vs)
    (hvs : List.Forall₂ (fun a v => resolve r s a = some v) (n.inst.args.take k) vs) :
    Renames True (Elsewhere x) g s ((List.range k).reverse.foldlM (popInput b x) f) fun _ _ _ => True := by
  induction k generalizing f g m vs with
  | zero => trivial
  | succ k ih =>
    have hlt : k < n.inst.args.length := hk
    have ha : n.inst.args[k]? = some n.inst.args[k] := List.getElem?_eq_getElem hlt
    have harg : m.inst.args[k]? = some n.inst.args[k] := (hsame k (Nat.lt_succ_self k)).trans ha
    rw [show n.inst.args.take (k + 1) = n.inst.args.take k ++ [n.inst.args[k]] by simp] at hvs
    obtain rfl | ⟨vs', v, rfl⟩ := vs.eq_nil_or_concat'
    · exact absurd hvs.length_eq (by rw [List.length_append]; exact Nat.succ_ne_zero _)
    obtain ⟨hvs', hv⟩ := forall₂_of_append hvs rfl
    obtain ⟨hv, -⟩ := List.forall₂_cons.mp hv
    have hsize : n.inst.args[k].index < r.nodes.size :=
      (h.raw.admits x n hbuilt).inputs _ (List.mem_append_left _ (List.getElem_mem hlt))
    have hpasses : Renames True (Elsewhere x) g s (popInput b x f k) fun _ _ _ => True := by
      refine passes_popInput (.inr ⟨rest ++ vs', n.inst.args[k], v, by rw [hf, List.append_assoc],
        FlowGraph.arg_eq_ok.mpr ⟨m, hm, harg⟩, fun op hop => ?_⟩)
      rw [expected_eq h hp hsize hop, hv]
    rw [List.range_succ, List.reverse_append, List.reverse_singleton, List.singleton_append, List.foldlM_cons,
      Renames.bind_iff]
    refine (Renames.with_bail (renames_popInput h hp hx hbuilt hm ha harg hresolved) hpasses).mono ?_
    rintro f₁ _ g₁ ⟨rfl, hpop, -, v', hf₁, -, -, m₁, hm₁, hinst₁, -⟩
    obtain rfl : rest ++ vs' = f₁ := by
      rw [hf, ← List.append_assoc] at hf₁
      exact (List.append_inj' hf₁ rfl).1
    refine ih hpop.progress (Nat.le_of_lt hlt) hm₁ (fun j hj => ?_) rfl hvs'
    rw [hinst₁, Inst.setArg_eq, Inst.args_mapArgs, List.getElem?_mapIdx, hsame j (Nat.lt_succ_of_lt hj)]
    simp [Nat.ne_of_lt hj]

theorem passes_popArguments {as : List InstId} (hf : f = rest ++ as) :
    Renames True (Elsewhere x) g s (as.reverse.foldlM (popArgument b i) f) fun _ _ _ => True := by
  induction as using List.reverseRecOn generalizing f g s with
  | nil => trivial
  | append_singleton as a ih =>
    rw [← List.append_assoc] at hf
    rw [List.reverse_append, List.reverse_singleton, List.singleton_append, List.foldlM_cons, Renames.bind_iff]
    refine (passes_popArgument (.inr ⟨_, hf⟩)).mono fun f₁ _ _ hf₁ => ih ?_
    exact (List.append_inj' (hf₁.symm.trans hf) rfl).1

theorem passes_moves (h : Base r t g₀) (hp : Progress r g₀ H g) (hx : x ∉ H) (hk : Known r H s g)
    (hmove : r.Moves x ops ops') (harguments : ∀ m : Node, r.nodes[x.index]? = some m →
      ∀ a ∈ m.inst.arguments, isLocalIn r a = false)
    (hf : Stands r s ops f) : Renames True (Elsewhere x) g s (renameInst b f x) fun _ _ _ => True := by
  obtain ⟨n, base, hn, rfl, -⟩ := hmove
  have hr : x.index < r.nodes.size := (Array.getElem?_eq_some_iff.mp hn).1
  have hgn : g.nodes[x.index]? = some n := hp.untouched x n hn hx
  have hp₀ : Progress r g₀ (x :: H) g := hp.mono (List.subset_cons_self x H)
  obtain ⟨rest, vs, rfl, hrest, hvs⟩ := hf.operands
  have hroom := hrest.room
  obtain ⟨rest', ps, rfl, -, hps⟩ := hrest.operands
  obtain rfl : n.inst.arguments = ps := by
    rw [← List.forall₂_eq_eq_eq]
    refine ((List.forall₂_and_left _ _).mpr ⟨harguments n hn, hps⟩).imp fun a v ⟨hlocal, hv⟩ => ?_
    simpa [resolve, hlocal] using hv
  refine passes_renameInst fun d g₁ hd hg₁ => ?_
  obtain rfl : n.inst = d := by simpa [FlowGraph.inst_eq_ok.mpr ⟨n, hgn, rfl⟩] using hd
  obtain ⟨m₁, hpop₁, hm₁, hinst₁⟩ : ∃ m₁, Popping r g₀ H s x g g₁ ∧ g₁.nodes[x.index]? = some m₁ ∧
    m₁.inst = n.inst := by
    obtain ⟨-, rfl⟩ | ⟨-, hrun⟩ := hg₁
    · exact ⟨n, ⟨hp₀, .refl H s g₁, .refl g₁, rfl, fun _ => rfl⟩, hgn, rfl⟩
    · obtain ⟨hpop, hm₁⟩ := (leads_attachEnv h hp₀ hx hr hgn).post_of_ok hrun
      exact ⟨_, hpop, hm₁, rfl⟩
  have hsame : ∀ j < n.inst.args.length, m₁.inst.args[j]? = n.inst.args[j]? := fun j _ => by rw [hinst₁]
  have hpasses : Renames True (Elsewhere x) g₁ s ((List.range n.inst.args.length).reverse.foldlM (popInput b x)
      (rest' ++ n.inst.arguments ++ vs)) fun _ _ _ => True :=
    passes_popInputs h hpop₁.progress hx hn hk.resolved (Nat.le_refl _) hm₁ hsame rfl (by rwa [List.take_length])
  refine (Renames.with_bail (renames_popInputs h hpop₁.progress hx hn hk.resolved (Nat.le_refl _) hm₁ hsame ?_)
    hpasses).mono ?_
  · rw [List.length_append]
    exact Nat.le_add_right_of_le hroom
  · rintro f₁ _ g₂ ⟨rfl, -, -, as, hf₁, has, -⟩
    refine passes_popArguments (List.append_inj' hf₁ ?_).1.symm
    rw [← hvs.length_eq, ← has.length_eq, List.take_length]

/-! ## The whole of construction -/

theorem Stands.later {s' : Names} {g' : FlowGraph} (hf : Stands r s ops f) (hl : Later H s g s' g') :
    Stands r s' ops f :=
  ⟨hf.room, hf.values.imp fun _ _ ha => resolve_later ha hl⟩

/-- The instruction `x` finds its operands on the expression stack of its block. -/
structure Served (r : FlowGraph) (x : InstId) : Prop where
  exists_move : ∃ b front back start ops ops', r.StackAt b start ∧ r.insts b = front ++ x :: back ∧
    r.Executes front start ops ∧ r.Moves x ops ops'
  arguments : ∀ m : Node, r.nodes[x.index]? = some m → ∀ a ∈ m.inst.arguments, isLocalIn r a = false

theorem passes_renameBlock (h : Base r t g₀) (hp : Progress r g₀ H g) (hk : Known r H s g) (hserved : Served r x)
    (hnew : ∀ i ∈ r.insts b, i ∉ H) (hsized : Sized r g₀ f)
    (hf : ∀ ops, r.StackAt b ops → Stands r s ops f) (hb : b ∈ t.preorder) :
    Renames True (Elsewhere x) g s (renameBlock b f) fun _ _ _ => True := by
  obtain ⟨k, hk₀⟩ := h.exists_block hb
  have hblock : g.blocks[b.index]? = some k := by rw [hp.outline.blocks, hk₀]
  have hphis : Renames True (Elsewhere x) g s ((phisOf g₀ b).foldlM enterPhi f) fun _ _ _ => True := by
    refine Renames.foldlM_of_forall fun phi _ f g s => ?_
    unfold enterPhi
    simp only [Renames.bind_iff, Renames.getThe_iff]
    refine .read fun _ _ => .read fun _ _ => ?_
    rw [Renames.discard_iff]
    exact .lift fun _ _ => trivial
  have hfill (f : Frame) (g : FlowGraph) (s : Names) : Renames True (Elsewhere x) g s (fillPhis b f) fun _ _ _ =>
    True := by
    unfold fillPhis
    rw [Renames.bind_iff, Renames.getThe_iff]
    split
    · trivial
    · rw [Renames.bind_iff]
      refine .read fun d _ => ?_
      split
      · rw [Renames.bind_iff]
        refine .read fun k _ => ?_
        split
        · exact fun hmismatch => by cases hmismatch
        · rw [Renames.bind_iff]
          refine .read fun phis _ => ?_
          refine (Renames.stepwise.forM (s := (s, g)) (fun _ _ => True) trivial fun _ phi _ w _ _ => ?_).mono
            fun _ _ _ _ => trivial
          simp only [Renames.bind_iff]
          exact .read fun _ _ => .read fun _ _ => .lift fun _ _ => trivial
      · trivial
  unfold renameBlock
  rw [Renames.bind_iff, Renames.getThe_iff, Renames.bind_iff, Renames.read_iff,
    FlowGraph.phis_eq_ok.mpr ⟨k, hblock, rfl⟩, Yields.ok_iff, Renames.bind_iff, ← phisOf_eq hk₀]
  refine (Renames.with_bail (renames_enterPhis h hp hk (fun _ hphi => hphi) hsized) hphis).mono ?_
  rintro f₁ _ g₁ ⟨rfl, rfl, hf₁, hadv₁, -⟩
  rw [Renames.bind_iff, Renames.getThe_iff, Renames.bind_iff, insts_eq h hadv₁.progress hnew]
  have hinsts : Renames True (Elsewhere x) g₁ s ((r.insts b).foldlM (renameInst b) (enter g₀ (phisOf g₀ b) f)) fun _ _
    _ => True := by
    by_cases hx : x ∈ r.insts b
    case neg => exact Renames.foldlM_of_forall fun i hi _ _ _ => passes_other fun heq => hx (heq ▸ hi)
    obtain ⟨c, front, back, start, ops, ops', hstack, hsplit, hfront, hmove⟩ := hserved.exists_move
    obtain rfl : b = c := by
      have hmem : x ∈ r.insts c := by simp [hsplit]
      have hhome := h.raw.layout.mem_iff.mp hx
      rwa [h.raw.layout.mem_iff.mp hmem, Option.some_inj, eq_comm] at hhome
    have hnodup : (front ++ x :: back).Nodup := hsplit ▸ h.raw.layout.nodup b
    obtain ⟨hnodup₁, hnodup₂, hdisjoint⟩ := List.nodup_append.mp hnodup
    have hxfront : x ∉ front := fun hmem => hdisjoint x hmem x List.mem_cons_self rfl
    have hxback : x ∉ back := (List.nodup_cons.mp hnodup₂).1
    have hbuilt : ∀ i ∈ front, i.index < r.nodes.size := fun i hi =>
      h.raw.placed i b (h.raw.layout.mem_iff.mp (show i ∈ r.insts b by simp [hsplit, hi]))
    have hothers {is : List InstId} (his : x ∉ is) (f : Frame) (g : FlowGraph) (s : Names) :
        Renames True (Elsewhere x) g s (is.foldlM (renameInst b) f) fun _ _ _ => True :=
      Renames.foldlM_of_forall fun i hi _ _ _ => passes_other fun heq => his (heq ▸ hi)
    rw [hsplit, List.foldlM_append, Renames.bind_iff]
    refine (Renames.with_bail (renames_renameInsts h hadv₁.progress hadv₁.known hnodup₁
      (fun i hi => hnew i (by simp [hsplit, hi])) hbuilt hf₁) (hothers hxfront _ _ _)).mono ?_
    rintro f₂ s₂ g₂ ⟨hadv₂, -, hruns⟩
    rw [List.foldlM_cons, Renames.bind_iff]
    have hxnew : x ∉ front.reverse ++ H := by
      rw [List.mem_append, List.mem_reverse, not_or]
      exact ⟨hxfront, hnew x hx⟩
    have hstands : Stands r s₂ ops f₂ :=
      hruns.stands h hfront (((hf start hstack).enter h fun _ hphi => hphi).later hadv₂.later)
    exact (passes_moves h hadv₂.progress hxnew hadv₂.known hmove hserved.arguments hstands).mono
      fun _ _ _ _ => hothers hxback _ _ _
  exact hinsts.mono fun _ _ _ _ => by
    rw [Renames.bind_iff]
    exact hfill _ _ _

theorem passes_renameTree (h : Base r t g₀) (hinit : Starts r g₀ init) (hserved : Served r x) {steps : Nat}
    (hw : Walked r t g₀ init s g outs stack) : Renames True (Elsewhere x) g s (renameTree steps stack) fun _ _ _ =>
    True := by
  induction steps generalizing s g outs stack with
  | zero =>
    unfold renameTree
    cases stack <;> trivial
  | succ steps ih =>
    cases stack with
    | nil => trivial
    | cons o stack =>
      obtain ⟨b, f⟩ := o
      obtain ⟨hb, -⟩ := hw.visited (b, f) (by simp)
      obtain ⟨hsized, henters⟩ := hw.pending (b, f) List.mem_cons_self
      have hnew : ∀ i ∈ r.insts b, i ∉ outs.flatMap fun o => r.insts o.1 := by
        intro i hi hmem
        obtain ⟨o, ho, hio⟩ := List.mem_flatMap.mp hmem
        have hhome := h.raw.layout.mem_iff.mp hi
        rw [h.raw.layout.mem_iff.mp hio, Option.some_inj] at hhome
        have hnodup := hw.nodup
        rw [List.map_append, List.map_cons] at hnodup
        exact (List.nodup_append.mp hnodup).2.2 _ (List.mem_map_of_mem ho) _ List.mem_cons_self hhome
      have hstands (ops : List InstId) (hops : r.StackAt b ops) : Stands r s ops f := by
        refine stands_of_runs (g := g) h hinit (Enters t init outs) (fun d f => (d, f) ∈ outs) ?_ ?_ ?_ hops henters
        · rintro f (⟨-, rfl⟩ | ⟨hne, -⟩)
          · rfl
          · exact absurd rfl hne
        · rintro b d f hne hd (⟨rfl, -⟩ | ⟨-, d', hd', hmem⟩)
          · exact absurd rfl hne
          · obtain rfl : d = d' := by simpa [hd] using hd'
            exact hmem
        · intro b f' hmem
          obtain ⟨f, hf, hrenamed⟩ := hw.done (b, f') hmem
          exact ⟨f, hf, hrenamed.runs⟩
      unfold renameTree
      rw [Renames.bind_iff]
      refine (Renames.with_bail (hw.step h) (passes_renameBlock h hw.progress hw.known hserved hnew hsized hstands
        hb)).mono fun f' s' g' hw' => ?_
      obtain ⟨k, hk₀⟩ := h.exists_block hb
      have hblock : g'.block b = .ok k := by
        rw [FlowGraph.block_eq_ok, hw'.progress.outline.blocks, hk₀]
      rw [Renames.bind_iff, Renames.getThe_iff, Renames.bind_iff, Renames.read_iff, hblock, Yields.ok_iff,
        (h.block b k hk₀ hb).2.2]
      exact ih hw'

theorem Unplaced.not_mismatch {d : Bailout} (h : Unplaced d) : ¬ Mismatch x d := by
  cases h <;> exact nofun

/-- Construction does not give up at an instruction that finds its operands on the stack. -/
theorem construct_passes (hraw : Raw r) (hserved : Served r x) :
    Ends True (fun d => ¬ Mismatch x d) r construct fun _ _ => True := by
  rw [construct_eq, Ends.bind_iff, Ends.getThe_iff]
  by_cases hcatch : r.catchEntries = []
  case neg =>
    have hrefused : (!r.catchEntries.isEmpty) = true := by simpa using hcatch
    rw [if_pos hrefused]
    exact nofun
  simp only [hcatch, List.isEmpty_nil, Bool.not_true, Bool.false_eq_true, if_false]
  rw [Ends.bind_iff]
  refine ((ends_placePhis hraw hcatch).weaken (fun _ => Unplaced.not_mismatch) False.elim).mono ?_
  rintro _ p ⟨t, hp⟩
  rw [rename_eq]
  simp only [Ends.bind_iff]
  refine ((ends_startFrame hp.base hp.initial).weaken (fun _ h => h) False.elim).mono ?_
  rintro ⟨init, _⟩ g₀ ⟨h, -, hinit, rfl⟩
  refine Ends.mono (passes_renameTree h hinit hserved (.start h hinit)) fun _ _ _ => ?_
  simp only [Ends.pure_iff, Ends.lift_iff]
  exact Leads.of_ok fun _ _ _ => Leads.of_ok fun _ _ _ => Leads.of_ok fun _ _ _ => trivial

end Midend.Ssa

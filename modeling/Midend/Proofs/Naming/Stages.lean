import Midend.Pipeline
import Midend.Proofs.Naming.Constants
import Midend.Proofs.Naming.Forgetting
import Midend.Proofs.Naming.Ranges
import Midend.Proofs.Ranges.Redundancy
import Midend.Proofs.Ssa.Sound

/-! # Names from construction on

Construction names every value that is used, and no two values alike. No stage gives a name twice, and all stages but
two name what comes to be read. Sharing and the elimination of loads do not: what they let be read may be a value that
nothing has used before.
-/

namespace Midend

open FlowGraph

theorem Inst.isTerminator_of_unaffected {d : Inst} (hfits : d.fits = true) (h : d.affectedBySideEffect = .ok false) :
    d.isTerminator = false := by
  have hopcode := Inst.isAffected_opcode hfits h
  unfold Inst.isTerminator
  cases hop : d.opcode <;> simp_all [Opcode.isTerminator, Opcode.isAffected]

namespace Naming

open Ssa Midend.Flow

/-! ## What construction leaves -/

/-- The instructions of the blocks that control comes to, the phis, what is there from the start, and whatever is made
later on. -/
def Scope.constructed (g : FlowGraph) : Scope where
  insts i := (∃ b ∈ g.preorder, i ∈ g.insts b) ∨ (∃ b, i ∈ phisOf g b) ∨ i ∈ g.initialDefinitions ∨
    g.nodes.size ≤ i.index
  blocks b := b ∈ g.preorder
  excused _ := False
  strict := True
  guided := True

section

variable {r g₀ g g' : FlowGraph} {t : Tour} {init : Ssa.Frame} {s : Names} {out : BlockId → Ssa.Frame}
    {L D : List InstId}
  {null i v : InstId} {a b : BlockId} {m : Node} {done : List InstId}

theorem mem_of_dominates (ht : Touring r t []) (hab : Dominates t a b) (hb : b ∈ t.preorder) : a ∈ t.preorder := by
  obtain rfl | ⟨c, -, hca⟩ := Relation.ReflTransGen.cases_tail hab
  · exact hb
  · exact (ht.mem_of_idom? hca).2

theorem ne_graphEntry_of_mem_phisOf (h : Base r t g₀) (hi : i ∈ phisOf g₀ b) : b ≠ graphEntry := by
  rintro rfl
  obtain ⟨-, -, hjoin, -⟩ := h.phi_of_mem hi
  obtain ⟨k, hk, hkind⟩ := Option.map_eq_some_iff.mp hjoin
  obtain ⟨k', hk', hsame, -⟩ := h.touring.kept _ k hk
  obtain rfl := Option.some_inj.mp (h.raw.top.symm.trans hk')
  rw [hsame] at hkind
  cases hkind

variable (h : AllRenamed r t g₀ init s g out) (hf : Finished t g L D null g')

include h hf

theorem usable_of_isValue (ha : a ∈ t.preorder) (hv : v ∈ r.insts a) (hvalue : IsValue r v) :
    Usable (.constructed g') g' v ∧ g'.Plain v := by
  have hmem : v ∈ g'.insts a := by
    rw [insts_finished hf]
    exact h.progress.layout.mem_iff.mpr (home_of_isValue h hv hvalue)
  obtain ⟨n, hn, hlocal, hdef, hused⟩ := hvalue
  obtain ⟨m, hm, ⟨f, hinst⟩, -⟩ := exists_built h hf hn
  refine ⟨⟨.inl ⟨a, hf.preorder ▸ ha, hmem⟩, .inr ?_⟩, plain_of_isDefinition hm ?_⟩
  · by_cases hpush : n.inst.opcode = .pushArgument
    · exact ⟨m, hm, fun _ hne => absurd (by rw [hinst, Inst.opcode_mapArgs, hpush]) hne⟩
    · obtain ⟨-, -, f₁, f₂, -, ⟨n', as, rest, hstep⟩, -⟩ := h.exists_step_of_mem ha hv
      obtain rfl := Option.some_inj.mp (hn.symm.trans hstep.built)
      exact (hf.names.indexed v (hstep.indexed hlocal hdef (hused.resolve_left hpush) hpush)).named
  · rw [hinst, Inst.isDefinition, Inst.opcode_mapArgs]
    exact hdef

theorem usable_of_origin (hb : b ∈ t.preorder) (hdone : done ⊆ r.insts b) (horigin : Origin r t g₀ b done v)
    (hlive : ∀ c, v ∈ phisOf g₀ c → v ∈ L) : Usable (.constructed g') g' v ∧ g'.Plain v := by
  obtain hv | ⟨a, hab, hv⟩ | ⟨a, hab, -, hv, hvalue⟩ | ⟨hv, hvalue⟩ := horigin
  · have hv' : v ∈ g'.initialDefinitions := by
      rwa [hf.initialDefinitions, h.progress.outline.initialDefinitions]
    obtain ⟨m, hm, -, hgiven, -⟩ := exists_initial h hf hv'
    have hnamed : g'.Indexed v := hf.names.indexed v (h.names.indexed v (h.base.indexed v hv))
    refine ⟨⟨.inr (.inr (.inl hv')), .inr hnamed.named⟩, plain_of_isDefinition hm ?_⟩
    obtain ⟨c, heq⟩ | ⟨k, heq⟩ := Inst.eq_of_isGiven hgiven
    · rw [heq]; rfl
    · rw [heq]; rfl
  · have ha := mem_of_dominates h.base.touring hab hb
    obtain ⟨m, hm, -, halive, -⟩ := exists_phi h hf hv (hlive a hv)
    have hindexed := (h.block a ha (ne_graphEntry_of_mem_phisOf h.base hv)).indexed v hv
    refine ⟨⟨.inr (.inl ⟨a, ?_⟩), .inr (hf.names.indexed v hindexed).named⟩, plain_of_isDefinition hm ?_⟩
    · exact (mem_phisOf_finished h hf ha).mpr ⟨hv, hlive a hv⟩
    · rw [Inst.isDefinition, Inst.opcode_of_isPhi (Inst.isPhi_of_isAlivePhi halive)]
      rfl
  · exact usable_of_isValue h hf (mem_of_dominates h.base.touring hab hb) hv hvalue
  · exact usable_of_isValue h hf hb (hdone hv) hvalue

theorem watched_inst (hb : b ∈ t.preorder) (hi : i ∈ g'.insts b) (hm : g'.nodes[i.index]? = some m) :
    Watched (.constructed g') g' m.inst := by
  have hbuilt : i ∈ r.insts b := h.mem_built (insts_finished hf ▸ hi)
  obtain ⟨front, back, f, f', hsplit, ⟨n, as, rest, hstep⟩, hstocked⟩ := h.exists_step_of_mem hb hbuilt
  obtain ⟨m', hm', ⟨rename, hinst⟩, -⟩ := exists_built h hf hstep.built
  obtain rfl := Option.some_inj.mp (hm.symm.trans hm')
  have hfits : n.inst.fits = true := (h.base.raw.admits i n hstep.built).fits
  refine ⟨fun v hv => ?_, fun v hv => ?_, fun _ => ?_⟩
  · obtain ⟨k, hk⟩ := List.mem_iff_getElem?.mp hv
    have hin : inputOf g i k = some v := by
      rw [← inputOf_finished hf, inputOf, hm]
      exact hk
    obtain ⟨front', back', hsplit', horigin, hlives⟩ := h.exists_operand hb hbuilt hin
    refine (usable_of_origin h hf hb ?_ horigin fun c hc => mem_live_of_lives h hf hlives hc).1
    rw [hsplit']
    exact List.subset_append_left ..
  · rw [hinst, Inst.arguments_mapArgs] at hv
    have hframe := hstep.frame
    rw [List.append_assoc] at hframe
    have hvf : v ∈ n.inst.arguments ++ as := List.mem_append_left as hv
    have hlives : Lives g₀ g v := Stocked.lives_of_mem (hframe ▸ hstocked) hstep.room hvf
    have horigin := hstocked.origin v (hframe ▸ List.mem_append_right rest hvf)
    have hused := usable_of_origin h hf hb ?_ horigin fun c hc => mem_live_of_lives h hf hlives hc
    · exact ⟨hused.1.1, fun _ => hused.2⟩
    · rw [hsplit]
      exact List.subset_append_left ..
  · rw [hinst, Inst.affectedBySideEffect_mapArgs, Inst.isTerminator_mapArgs]
    exact Inst.isTerminator_of_unaffected hfits

theorem watched_phi (hi : i ∈ phisOf g₀ b) (hlive : i ∈ L) (hm : g'.nodes[i.index]? = some m) :
    Watched (.constructed g') g' m.inst := by
  obtain ⟨m', hm', -, halive, -, hsame⟩ := exists_phi h hf hi hlive
  obtain rfl := Option.some_inj.mp (hm.symm.trans hm')
  have hphi : m.inst.isPhi = true := Inst.isPhi_of_isAlivePhi halive
  refine ⟨fun v hv => ?_, fun v hv => ?_, fun _ _ => ?_⟩
  · obtain ⟨k, hk⟩ := List.mem_iff_getElem?.mp hv
    have hin : inputOf g i k = some v := by
      rw [← hsame, inputOf, hm]
      exact hk
    obtain ⟨p, -, hp, hne, hv⟩ := h.exists_incoming hi hin
    refine (usable_of_origin h hf hp (List.Subset.refl _) ((h.stocked hp hne).2.origin v (List.mem_of_getElem? hv))
      ?_).1
    intro c hc
    obtain ⟨-, -, -, -, hnode⟩ := h.base.phi_of_mem hc
    obtain ⟨n₁, hn₁, hev⟩ := h.progress.nodes v _ hnode
    exact hf.closed i hlive k v hin (isPhiIn_iff.mpr ⟨n₁, hn₁, hev.isPhi⟩)
  · unfold Inst.isPhi at hphi
    split at hphi
    next heq =>
      rw [heq] at hv
      cases hv
    · cases hphi
  · rw [Inst.isTerminator, Inst.opcode_of_isPhi hphi]
    rfl

theorem mem_phis_of_finished (hi : i ∈ phisOf g' b) : i ∈ phisOf g₀ b ∧ i ∈ L := by
  obtain ⟨k, hk, hmem⟩ := exists_of_mem_phisOf hi
  rw [hf.blocks] at hk
  obtain ⟨k₀, hk₀, rfl⟩ := Option.map_eq_some_iff.mp hk
  have hi₀ : i ∈ phisOf g₀ b := by
    rw [← h.phisOf_eq, phisOf_eq hk₀]
    exact (List.mem_filter.mp hmem).1
  exact (mem_phisOf_finished h hf (h.base.phi_of_mem hi₀).2.1).mp hi

theorem watched_finished (hi : (Scope.constructed g').insts i) (hm : g'.nodes[i.index]? = some m) :
    Watched (.constructed g') g' m.inst := by
  obtain ⟨b, hb, hmem⟩ | ⟨b, hmem⟩ | hmem | hnew := hi
  · exact watched_inst h hf (hf.preorder ▸ hb) hmem hm
  · obtain ⟨hphi, hlive⟩ := mem_phis_of_finished h hf hmem
    exact watched_phi h hf hphi hlive hm
  · obtain ⟨m', hm', -, hgiven, -⟩ := exists_initial h hf hmem
    obtain rfl := Option.some_inj.mp (hm.symm.trans hm')
    obtain ⟨c, heq⟩ | ⟨k, heq⟩ := Inst.eq_of_isGiven hgiven
    · rw [heq]
      exact ⟨nofun, nofun, fun _ _ => rfl⟩
    · rw [heq]
      exact ⟨nofun, nofun, fun _ _ => rfl⟩
  · exact absurd (Array.getElem?_eq_some_iff.mp hm).1 (Nat.not_lt.mpr hnew)

theorem stays_finished (hb : b ∈ t.preorder) : Stays (.constructed g') g' (g'.insts b) := by
  by_cases hne : b = graphEntry
  · subst hne
    rintro i n ⟨front, back, heq, -⟩
    have hi : i ∈ g'.insts graphEntry := heq ▸ List.mem_append_right front List.mem_cons_self
    exact absurd rfl (h.base.ne_graphEntry (h.mem_built (insts_finished hf ▸ hi)))
  · obtain ⟨last, n, -, hlast, hn, hterm, -, -⟩ := lastInst_finished h hf hb hne
    obtain ⟨m, hm, ⟨f, hinst⟩, -⟩ := exists_built h hf hn
    have hends : g'.Ends last := ⟨m, hm, by rw [hinst, Inst.isTerminator_mapArgs, hterm]⟩
    obtain ⟨is, hinsts⟩ := List.getLast?_eq_some_iff.mp hlast
    rintro i n' ⟨front, back, heq, hback⟩ hn' c hc
    obtain rfl : i = last := by
      by_contra hi
      refine hback last ?_ hends
      have hmem : last ∈ g'.insts b := List.mem_of_getLast? hlast
      have hsuffix : (i :: back).getLast? = some last := by
        have hlast' : (g'.insts b).getLast? = some last := hlast
        rw [heq, List.getLast?_append_cons] at hlast'
        exact hlast'
      exact (List.mem_cons.mp (List.mem_of_getLast? hsuffix)).resolve_left fun hl => hi hl.symm
    obtain rfl := Option.some_inj.mp (hn'.symm.trans hm)
    have hnext : c ∈ r.next b := by
      have hsuccs := succs_finished h hf hb
      unfold FlowGraph.succs at hsuccs
      simp only [if_neg hne, hlast, inst_eq_ok.mpr ⟨n', hm, rfl⟩, bind, Except.bind] at hsuccs
      exact Except.ok.inj hsuccs ▸ hc
    show c ∈ g'.preorder
    rw [hf.preorder]
    exact h.base.touring.mem_of_edge hb hnext

theorem bounded_finished : Bounded (.constructed g') g' where
  sound _ := hf.layout ▸ h.progress.layout
  insts b i hb hi := .inl ⟨b, hb, hi⟩
  phis b k hk i hi := .inr (.inl ⟨b, phisOf_eq hk ▸ hi⟩)
  below b k hb hk c hc := by
    have hb : b ∈ t.preorder := hf.preorder ▸ hb
    rw [hf.blocks] at hk
    obtain ⟨k₀, hk₀, rfl⟩ := Option.map_eq_some_iff.mp hk
    rw [h.progress.outline.blocks] at hk₀
    have hchild : c ∈ t.children b := (h.base.block b k₀ hk₀ hb).2.2 ▸ hc
    show c ∈ g'.preorder
    rw [hf.preorder]
    exact (List.mem_filter.mp hchild).1
  ordered b hb := by
    show b ∈ g'.preorder
    obtain hb | hb := hb
    · exact hb
    · rw [hf.preorder]
      exact h.base.touring.opened.subset (hf.postorder ▸ hb)
  entries := by
    show graphEntry ∈ g'.preorder ∧ normalEntry ∈ g'.preorder ∧ ∀ b ∈ g'.catchEntries, b ∈ g'.preorder
    rw [hf.preorder, hf.catchEntries]
    refine ⟨List.mem_of_getElem? h.base.touring.entry, ?_, List.forall_mem_nil _⟩
    exact List.mem_of_getElem? (h.base.touring.preorder_one h.base.catchEntries)

theorem vetted_finished : Vetted (.constructed g') g' where
  numbered := hf.names.numbered (h.names.numbered h.base.numbered)
  watched _ _ hm hi := watched_finished h hf hi hm
  uses d n hn u hu := by
    obtain ⟨⟨b, hb, huser⟩, hread⟩ := (hf.listed.inputs d n hn u).mp hu
    obtain ⟨m, hm, hk⟩ := Option.bind_eq_some_iff.mp hread
    have hi : (Scope.constructed g').insts u.user := by
      obtain ⟨hphi, -⟩ | hplaced := huser
      · exact .inr (.inl ⟨b, hphi⟩)
      · exact .inl ⟨b, hb, hplaced⟩
    exact ⟨hi, (watched_finished h hf hi hm).args d (List.mem_of_getElem? hk)⟩
  initial d hd := by
    have hd₀ : d ∈ g₀.initialDefinitions := by
      rwa [hf.initialDefinitions, h.progress.outline.initialDefinitions] at hd
    have hentry : graphEntry ∈ t.preorder := List.mem_of_getElem? h.base.touring.entry
    refine (usable_of_origin h hf hentry (List.nil_subset _) (.inl hd₀) fun c hc => ?_).1
    exact absurd hd₀ (h.base.phi_not_initial hc)
  bounded := bounded_finished h hf
  stays _ _ b hb := stays_finished h hf (hf.preorder ▸ hb)
  created _ hi := .inr (.inr (.inr hi))

end

/-! ## Stages -/

variable {α : Type} {S : Scope} {r g g' : FlowGraph} {stage : Stage} {ctx : Context} {b : BlockId} {i d : InstId}

/-- The stage may let a value be read that has no name. -/
def Forgetful : Stage → Prop
  | .eliminateLoads | .shareValues => True
  | _ => False

theorem minds_stage (hS : S.Impartial) (hclosed : S.Closed) (hstage : ¬ Forgetful stage) :
    Minds S g (stage.run ctx) := by
  cases stage with
  | specialize => exact minds_specialize hS
  | applyClasses => exact minds_applyClasses hS
  | simplify => exact minds_simplify
  | propagateClasses => exact minds_propagateClasses
  | propagateConstants => exact minds_propagateConstants hS hclosed
  | eliminateLoads => exact absurd trivial hstage
  | shareValues => exact absurd trivial hstage
  | hoistInvariants => exact minds_hoistInvariants
  | propagateSmis => exact minds_propagateSmis
  | analyzeRanges => exact minds_analyzeRanges
  | selectRepresentations => exact minds_selectRepresentations

theorem minds_stage_indifferent : Minds .indifferent g (stage.run ctx) := by
  by_cases hstage : Forgetful stage
  · cases stage with
    | eliminateLoads => exact minds_eliminateLoads
    | shareValues => exact minds_shareValues
    | _ => exact False.elim hstage
  · exact minds_stage (fun _ _ _ => trivial) (.inr fun _ => trivial) hstage

/-- Runs stages one after the other, each in its own context. -/
def runAll (steps : List (Context × Stage)) : Edit Unit := steps.forM fun s => discard (s.2.run s.1)

theorem minds_runAll {steps : List (Context × Stage)} (hsteps : ∀ s ∈ steps, ∀ g, Minds S g (s.2.run s.1)) :
    Minds S g (runAll steps) :=
  .each fun s hs g' _ => .discarding (hsteps s hs g')

/-- The value is read by a phi, or in a block that control comes to. -/
def IsRead (g : FlowGraph) (d : InstId) : Prop :=
  ∃ (i : InstId) (n : Node), ((∃ b, g.Reachable b ∧ i ∈ g.insts b) ∨ ∃ b, i ∈ phisOf g b) ∧
    g.nodes[i.index]? = some n ∧ d ∈ n.inst.args

theorem Vetted.usable_of_isRead (hg : Vetted S g) (hS : S.Closed) (hd : IsRead g d) : Usable S g d := by
  obtain ⟨i, n, hi, hn, hd⟩ := hd
  refine (hg.watched i n hn ?_).args d hd
  obtain ⟨b, hb, hi⟩ | ⟨b, hi⟩ := hi
  · exact hg.bounded.insts b i (hg.blocks_of_reachable hS hb) hi
  · obtain ⟨k, hk, hi⟩ := exists_of_mem_phisOf hi
    exact hg.bounded.phis b k hk i hi

theorem vetted_constructed (h : Built b r) (hrun : Ssa.construct.run r = .ok (.ok (), g)) :
    Vetted (.constructed g) g := by
  obtain ⟨result, g₁, hrun₁, hpost⟩ := (gives_construct h.raw.1).exists_ok
  obtain ⟨rfl, rfl⟩ := Prod.mk.inj (Except.ok.inj (hrun₁.symm.trans hrun))
  obtain ⟨p, t, g₀, init, s, g₂, out, L, D, null, -, -, -, hall, hfin⟩ := hpost () rfl
  exact vetted_finished hall hfin

theorem named_of_isRead {m : Edit α} {x : α} (hg : Vetted (.constructed g) g) (hm : Minds (.constructed g) g m)
    (hrun : m.run g = .ok (x, g')) (hd : IsRead g' d) : g'.Named d := by
  obtain ⟨hg', -⟩ := (hm hg).post_of_ok hrun
  exact (hg'.usable_of_isRead (.inl ⟨trivial, trivial⟩) hd).2.resolve_left id

theorem minds_stage_constructed (hstage : ¬ Forgetful stage) {g₀ : FlowGraph} :
    Minds (.constructed g₀) g (stage.run ctx) :=
  minds_stage (fun _ _ h => h) (.inl ⟨trivial, trivial⟩) hstage

/-- Whatever stages run on a graph that was built and constructed, no two values have the same name. Unless one of them
forgets to give names, everything that is read has one, pushed arguments apart. -/
theorem names_after_stages (h : Built b r) (hrun : Ssa.construct.run r = .ok (.ok (), g))
    {steps : List (Context × Stage)} (hsteps : (runAll steps).run g = .ok ((), g')) :
    g'.Numbered ∧ ((∀ s ∈ steps, ¬ Forgetful s.2) → ∀ d, IsRead g' d → g'.Named d) := by
  have hg := vetted_constructed h hrun
  constructor
  · have hminds : Minds .indifferent g (runAll steps) := minds_runAll fun s _ g => minds_stage_indifferent
    obtain ⟨hg', -⟩ := (hminds (vetted_indifferent_iff.mpr hg.numbered)).post_of_ok hsteps
    exact hg'.numbered
  · intro hmindful d hd
    exact named_of_isRead hg (minds_runAll fun s hs _ => minds_stage_constructed (hmindful s hs)) hsteps hd

/-! ## Runs -/

/-- The graph that commands lead to, in SSA form, and what an edit makes of it. -/
def edited (m : Edit α) (parameters : Nat) (commands : List Command) : Option (FlowGraph × FlowGraph × FlowGraph) := do
  let (_, r) ← Command.script commands normalEntry (FlowGraph.new "f" parameters 0)
  let (result, g) ← (Ssa.construct.run r).toOption
  result.toOption
  let (_, g') ← (m.run g).toOption
  return (r, g, g')

theorem of_edited {m : Edit α} {parameters : Nat} {commands : List Command} (hslots : parameters < NumberSet.limit)
    (h : edited m parameters commands = some (r, g, g')) :
    (∃ b, Built b r) ∧ Ssa.construct.run r = .ok (.ok (), g) ∧ ∃ x, m.run g = .ok (x, g') := by
  obtain ⟨⟨b, r₁⟩, hscript, h⟩ := Option.bind_eq_some_iff.mp h
  obtain ⟨⟨result, g₁⟩, hconstruct, h⟩ := Option.bind_eq_some_iff.mp h
  obtain ⟨⟨⟩, hresult, h⟩ := Option.bind_eq_some_iff.mp h
  obtain ⟨⟨x, g₂⟩, hrun, h⟩ := Option.bind_eq_some_iff.mp h
  cases h
  cases result with
  | error e => cases hresult
  | ok u =>
    have hstart : Built normalEntry (FlowGraph.new "f" parameters 0) := @Built.start "f" parameters 0 none hslots
    exact ⟨⟨b, hstart.script hscript⟩, toOption_eq_some_iff.mp hconstruct, x, toOption_eq_some_iff.mp hrun⟩

/-- Whether the instruction reads the value, computed. -/
def reads (g : FlowGraph) (b : BlockId) (i d : InstId) : Bool :=
  ((g.next graphEntry).contains b && (g.insts b).contains i || (phisOf g b).contains i) &&
    (g.nodes[i.index]?).any fun n => n.inst.args.contains d

theorem isRead_of_reads (h : reads g b i d = true) : IsRead g d := by
  simp only [reads, Bool.and_eq_true, Bool.or_eq_true, List.contains_iff_mem, Option.any_eq_true] at h
  obtain ⟨hi, n, hn, hd⟩ := h
  refine ⟨i, n, ?_, hn, hd⟩
  obtain ⟨hb, hi⟩ | hi := hi
  · exact .inl ⟨b, .single hb, hi⟩
  · exact .inr ⟨b, hi⟩

def knownSum : List Command :=
  [.inst (.constant (.smi 2)), .inst (.constant (.smi 3)), .inst (.smiOp .add ⟨0⟩ ⟨1⟩), .inst (.unary .ret ⟨2⟩)]

/-- The constant that takes the place of the sum is new, and has a name. -/
theorem knownSum_named : ∃ r g g', (∃ b, Built b r) ∧ Ssa.construct.run r = .ok (.ok (), g) ∧
    (runAll [({}, .propagateConstants), ({}, .simplify)]).run g = .ok ((), g') ∧ g'.Numbered ∧
      ∃ d, g.nodes[d.index]? = none ∧ IsRead g' d ∧ g'.Named d := by
  have hcompute : (edited (runAll [({}, .propagateConstants), ({}, .simplify)]) 0 knownSum).map (fun x =>
      x.2.1.nodes.size ≤ 5 && reads x.2.2 ⟨1⟩ ⟨3⟩ ⟨5⟩) = some true := by decide +kernel
  obtain ⟨⟨r, g, g'⟩, hedited, hholds⟩ := Option.map_eq_some_iff.mp hcompute
  rw [Bool.and_eq_true, decide_eq_true_eq] at hholds
  obtain ⟨⟨b, hbuilt⟩, hrun, ⟨⟩, hsteps⟩ := of_edited (by decide) hedited
  obtain ⟨hnumbered, hnamed⟩ := names_after_stages hbuilt hrun hsteps
  have hread := isRead_of_reads hholds.2
  refine ⟨r, g, g', ⟨b, hbuilt⟩, hrun, hsteps, hnumbered, ⟨5⟩, Array.getElem?_eq_none hholds.1, hread,
    hnamed ?_ _ hread⟩
  simp [Forgetful]

/-! ## Stages that forget names -/

/-- On some graph that was built and constructed, the stage lets a value be read that has no name. -/
def LosesName (stage : Stage) : Prop :=
  ∃ b r g ctx changed g', Built b r ∧ Ssa.construct.run r = .ok (.ok (), g) ∧
    (stage.run ctx).run g = .ok (changed, g') ∧ ∃ d, IsRead g' d ∧ ¬ g'.Named d

/-- Adds the two parameters twice, and returns the second sum. -/
def addedTwice : List Command :=
  [.inst (.loadLocal 0), .inst (.loadLocal 1), .inst (.smiOp .add ⟨0⟩ ⟨1⟩), .inst (.loadLocal 0), .inst (.loadLocal 1),
    .inst (.smiOp .add ⟨3⟩ ⟨4⟩), .inst (.unary .ret ⟨5⟩)]

/-- Loads a field of the parameter on both sides of a branch, and returns what a third load behind them gives. -/
def loadedBefore : List Command :=
  [.targetBlock, .targetBlock, .joinBlock, .inst (.loadLocal 0), .branchIf ⟨0⟩ ⟨2⟩ ⟨3⟩,
    .appendTo ⟨2⟩, .inst (.loadLocal 0), .inst (.loadField 16 .dynamic .unknown false ⟨3⟩), .inst (.goto ⟨4⟩),
    .appendTo ⟨3⟩, .inst (.loadLocal 0), .inst (.loadField 16 .dynamic .unknown false ⟨6⟩), .inst (.goto ⟨4⟩),
    .appendTo ⟨4⟩, .inst (.loadLocal 0), .inst (.loadField 16 .dynamic .unknown false ⟨9⟩), .inst (.unary .ret ⟨10⟩)]

/-- Whether the instruction reads the value, which has no name, computed. -/
def readsUnnamed (g : FlowGraph) (b : BlockId) (i d : InstId) : Bool :=
  reads g b i d && (g.nodes[d.index]?).any fun n =>
    n.inst.isDefinition && n.inst.opcode != .pushArgument && n.ssaIndex.isNone

theorem losesName_of_readsUnnamed {parameters : Nat} {commands : List Command} (hslots : parameters < NumberSet.limit)
    (h : (edited (stage.run {}) parameters commands).map (fun x => readsUnnamed x.2.2 b i d) = some true) :
    LosesName stage := by
  obtain ⟨⟨r, g, g'⟩, hedited, hholds⟩ := Option.map_eq_some_iff.mp h
  obtain ⟨⟨b, hbuilt⟩, hrun, changed, hstage⟩ := of_edited hslots hedited
  simp only [readsUnnamed, Bool.and_eq_true, Option.any_eq_true, bne_iff_ne] at hholds
  obtain ⟨hread, n, hn, ⟨hdef, hpush⟩, hindex⟩ := hholds
  refine ⟨b, r, g, {}, changed, g', hbuilt, hrun, hstage, d, isRead_of_reads hread, ?_⟩
  rintro ⟨m, hm, hnamed⟩
  obtain rfl := Option.some_inj.mp (hn.symm.trans hm)
  rw [Option.isNone_iff_eq_none] at hindex
  have hsome := hnamed hdef hpush
  rw [hindex] at hsome
  cases hsome

theorem readsUnnamed_addedTwice : (edited (Stage.shareValues.run {}) 2 addedTwice).map
    (fun x => readsUnnamed x.2.2 ⟨1⟩ ⟨6⟩ ⟨2⟩) = some true := by decide +kernel

theorem readsUnnamed_loadedBefore : (edited (Stage.eliminateLoads.run {}) 1 loadedBefore).map
    (fun x => readsUnnamed x.2.2 ⟨4⟩ ⟨14⟩ ⟨4⟩) = some true := by decide +kernel

theorem sums_and_loads_unnamed : LosesName .shareValues ∧ LosesName .eliminateLoads :=
  ⟨losesName_of_readsUnnamed (by decide) readsUnnamed_addedTwice,
    losesName_of_readsUnnamed (by decide) readsUnnamed_loadedBefore⟩

theorem losesName_iff : LosesName stage ↔ Forgetful stage := by
  constructor
  · rintro ⟨b, r, g, ctx, changed, g', hbuilt, hrun, hstage, d, hread, hunnamed⟩
    by_contra hmindful
    exact hunnamed (named_of_isRead (vetted_constructed hbuilt hrun) (minds_stage_constructed hmindful) hstage hread)
  · intro hstage
    cases stage with
    | shareValues => exact losesName_of_readsUnnamed (by decide) readsUnnamed_addedTwice
    | eliminateLoads => exact losesName_of_readsUnnamed (by decide) readsUnnamed_loadedBefore
    | _ => exact False.elim hstage

end Naming

end Midend

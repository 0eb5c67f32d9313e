import Midend.Proofs.Execution.Traces

/-! # Values that come from one definition

Definitions may draw on each other in a circle, through phis, and take nothing from outside but the value of one
definition, their origin. Control then comes to each of them by way of the origin, and the origin is not evaluated again
while they are in scope. So whatever each evaluation of one of them preserves relates their values to the one that the
origin has now.
-/

namespace Midend.Execution

open Midend.Flow FlowGraph Ssa

variable {g : FlowGraph} {ds : Set InstId} {origin d e i : InstId} {a b c : BlockId} {path : List BlockId}
  {front rest : List InstId}

/-! ## Scope -/

/-- Control comes to what stands behind `front` in `b` by way of `d`. -/
def InScope (g : FlowGraph) (b : BlockId) (front : List InstId) (d : InstId) : Prop :=
  ∃ a, g.Dominates a b ∧ (d ∈ g.live a ∨ d ∈ g.insts a ∧ (a = b → d ∈ front))

/-- Control comes to the evaluation of `d` by way of `e`. -/
def Ahead (g : FlowGraph) (e d : InstId) : Prop :=
  Precedes g e d ∨ ∃ a b, (e ∈ g.insts a ∨ e ∈ g.live a) ∧ g.Reachable b ∧ d ∈ g.live b ∧ g.Dominates a b ∧ a ≠ b

/-- What is in scope at the start of a block was in scope at the end of the one before, unless it is one of its phis. -/
theorem InScope.of_edge (h : InScope g c [] d) (hedge : g.Edge b c) (hlive : d ∉ g.live c) :
    InScope g b (g.insts b) d := by
  obtain ⟨a, hdom, hd⟩ := h
  have hne : a ≠ c := by
    rintro rfl
    obtain hd | ⟨-, hd⟩ := hd
    · exact hlive hd
    · cases hd rfl
  refine ⟨a, fun path hpath hhead => ?_, hd.imp_right fun hd => ⟨hd.1, fun h => h ▸ hd.1⟩⟩
  exact (List.mem_cons.mp (hdom (c :: path) (.cons (hhead ▸ hedge) hpath) rfl)).resolve_left hne

namespace Definite

variable (hg : Definite g)

include hg

theorem inScope_of_precedes (h : Precedes g d i) (hsplit : g.insts b = front ++ i :: rest) : InScope g b front d := by
  obtain ⟨a, b', hd, -, hi, hdom, hfront⟩ := h
  obtain rfl := hg.block_unique hi (by simp [hsplit] : i ∈ g.insts b)
  exact ⟨a, hdom, hd.symm.imp_right fun hd => ⟨hd, fun h => hfront front rest hsplit (h ▸ hd)⟩⟩

theorem not_ahead_of_inScope (hd : InScope g b front d) (hb : g.Reachable b) (hsplit : g.insts b = front ++ i :: rest) :
    ¬ Ahead g i d := by
  have hi : i ∈ g.insts b := by simp [hsplit]
  obtain ⟨a, hdom, hd⟩ := hd
  rintro (⟨c, a', hic, ha', hda, hca, hfront⟩ | ⟨c, a', hic, ha', hda, hca, hne⟩)
  · obtain rfl := hg.home_unique (hca.reachable ha') hb hic (.inl hi)
    obtain ⟨hda', hin⟩ := hd.resolve_left (hg.not_mem_live hda)
    obtain rfl := hg.block_unique hda hda'
    obtain rfl := hca.antisymm hdom ha'
    obtain ⟨front₁, front₂, rfl⟩ := List.append_of_mem (hin rfl)
    have hmem := hfront front₁ (front₂ ++ i :: rest) (by simp [hsplit]) hi
    have hnodup : g.insts c |>.Nodup := hg.located.sound.nodup c
    rw [hsplit] at hnodup
    exact (List.nodup_append.mp hnodup).2.2 i (List.mem_append_left _ hmem) i List.mem_cons_self rfl
  · obtain rfl := hg.home_unique (hca.reachable ha') hb hic (.inl hi)
    obtain rfl : a' = a := hg.home_unique ha' (hdom.reachable hb) (.inr hda) (hd.symm.imp And.left id)
    exact hne (hca.antisymm hdom ha')

theorem not_ahead_of_live (hd : InScope g c [] d) (hc : g.Reachable c) (hi : i ∈ g.live c) : ¬ Ahead g i d := by
  obtain ⟨a, hdom, hd⟩ := hd
  rintro (⟨b, a', hib, ha', hda, hba, -⟩ | ⟨b, a', hib, ha', hda, hba, hne⟩)
  · obtain rfl := hg.home_unique (hba.reachable ha') hc hib (.inr hi)
    obtain ⟨hda', hin⟩ := hd.resolve_left (hg.not_mem_live hda)
    obtain rfl := hg.block_unique hda hda'
    cases hin (hdom.antisymm hba hc)
  · obtain rfl := hg.home_unique (hba.reachable ha') hc hib (.inr hi)
    obtain rfl : a' = a := hg.home_unique ha' (hdom.reachable hc) (.inr hda) (hd.symm.imp And.left id)
    exact hne (hba.antisymm hdom ha')

end Definite

/-! ## Drawing on an origin -/

/-- What is evaluated of `ds` draws on other members: an instruction on some, and a phi on nothing else but the
origin. -/
structure DrawnFrom (g : FlowGraph) (origin : InstId) (ds : Set InstId) : Prop where
  not_initial : ∀ d ∈ ds, d ∉ g.initialDefinitions
  inputs : ∀ d ∈ ds, ∀ b, d ∈ g.insts b → ∀ n, g.nodes[d.index]? = some n →
    n.inst.isDefinition = true ∧ ∃ a ∈ n.inst.args, a ∈ ds
  phis : ∀ d ∈ ds, ∀ b, d ∈ g.live b → ∀ n, g.nodes[d.index]? = some n → ∀ a ∈ n.inst.args, a = origin ∨ a ∈ ds

namespace DrawnFrom

variable (h : DrawnFrom g origin ds) (hg : Definite g) (horigin : origin ∉ g.initialDefinitions)

include h hg horigin

omit horigin in
theorem origin_before_inst (hpath : g.IsPath path)
    (hbefore : ∀ d ∈ ds, d ∈ g.arrived path ++ front → origin ∈ g.arrived path ++ front)
    (hsplit : g.insts (path.headD graphEntry) = front ++ i :: rest) (hi : i ∈ ds) :
    origin ∈ g.arrived path ++ front := by
  have hmem : i ∈ g.insts (path.headD graphEntry) := by
    rw [hsplit]
    simp
  obtain ⟨n, hn, hall⟩ := hg.reads.inputs path hpath (hg.ne_graphEntry hmem) front i rest hsplit
  obtain ⟨-, a, ha, hads⟩ := h.inputs i hi _ hmem n hn
  exact hbefore a hads ((hall a ha).resolve_left (h.not_initial a hads))

theorem origin_before_phi (hpath : g.IsPath path) (hedge : g.Edge (path.headD graphEntry) c)
    (hbefore : ∀ d ∈ ds, d ∈ g.arrived path ++ g.insts (path.headD graphEntry) →
      origin ∈ g.arrived path ++ g.insts (path.headD graphEntry)) (hd : d ∈ ds) (hlive : d ∈ g.live c) :
    origin ∈ g.arrived path ++ g.insts (path.headD graphEntry) := by
  obtain ⟨ps, hps, hmem, hall⟩ := hg.reads.edges path c hpath hedge
  obtain ⟨as, has, hdefined⟩ := hall d hlive
  obtain ⟨n, hn, rfl⟩ := args_eq_ok.mp has
  obtain ⟨k, hk⟩ := List.mem_iff_getElem?.mp hmem
  obtain ⟨a, ha, hwhere⟩ := hdefined k hk
  obtain rfl | hads := h.phis d hd c hlive n hn a (List.mem_of_getElem? ha)
  · exact hwhere.resolve_left horigin
  · exact hbefore a hads (hwhere.resolve_left (h.not_initial a hads))

theorem origin_before (hpath : g.IsPath path) (hsplit : g.insts (path.headD graphEntry) = front ++ rest) (hd : d ∈ ds)
    (hmem : d ∈ g.arrived path ++ front) : origin ∈ g.arrived path ++ front := by
  induction path generalizing front rest d with
  | nil =>
    rw [List.headD_nil, hg.entry] at hsplit
    simp [(List.nil_eq_append_iff.mp hsplit).1, arrived] at hmem
  | cons b path ih =>
    induction front using List.reverseRecOn generalizing rest d with
    | nil =>
      rw [List.append_nil, arrived, List.mem_append] at hmem ⊢
      cases hpath with
      | cons hedge hpath =>
        have hbefore : ∀ d ∈ ds, d ∈ g.arrived path ++ g.insts (path.headD graphEntry) →
            origin ∈ g.arrived path ++ g.insts (path.headD graphEntry) :=
          fun d hd => ih hpath (List.append_nil _).symm hd
        refine .inl (hmem.elim (hbefore d hd) fun hlive => ?_)
        exact h.origin_before_phi hg horigin hpath hedge hbefore hd hlive
    | append_singleton front i ihfront =>
      have hsplit' : g.insts ((b :: path).headD graphEntry) = front ++ i :: rest := by simpa using hsplit
      rw [← List.append_assoc, List.mem_append] at hmem ⊢
      refine .inl (hmem.elim (ihfront hsplit' hd) fun hlast => ?_)
      obtain rfl := List.mem_singleton.mp hlast
      exact h.origin_before_inst hg hpath (fun d hd => ihfront hsplit' hd) hsplit' hd

omit horigin in
theorem ahead (hd : d ∈ ds) (hb : g.Reachable b) (hhome : d ∈ g.insts b ∨ d ∈ g.live b) :
    origin ∈ g.initialDefinitions ∨ Ahead g origin d := by
  rw [or_iff_not_imp_left]
  intro horigin
  obtain hmem | hlive := hhome
  · refine .inl (hg.precedes_of_read hb hmem fun path hpath hhead front back hsplit => ?_)
    subst hhead
    exact h.origin_before_inst hg hpath (fun d hd => h.origin_before hg horigin hpath hsplit hd) hsplit hd
  · have hne : b ≠ graphEntry := by
      rintro rfl
      rw [hg.phisApart.entry] at hlive
      cases hlive
    -- On the way to the block for the first time, the origin cannot be one of its phis.
    have hread (path : List BlockId) (hpath : g.IsPath (b :: path)) :
        origin ∈ g.arrived path ++ g.insts (path.headD graphEntry) := by
      cases hpath with
      | cons hedge hpath =>
        exact h.origin_before_phi hg horigin hpath hedge
          (fun d hd => h.origin_before hg horigin hpath (List.append_nil _).symm hd) hd hlive
    have htrace (path : List BlockId) (hpath : g.IsPath path) (hhead : path.headD graphEntry = b) :
        origin ∈ g.arrived path ++ g.insts b := by
      cases path with
      | nil => exact absurd hhead.symm hne
      | cons c path =>
        obtain rfl : c = b := hhead
        rw [arrived]
        exact List.mem_append_left _ (List.mem_append_left _ (hread path hpath))
    obtain ⟨a, ha, hdom⟩ := hg.exists_home hb htrace
    refine .inr ⟨a, b, ha, hb, hlive, hdom, ?_⟩
    rintro rfl
    obtain ⟨path, hpath, hfresh⟩ := exists_path_to hb hne
    obtain ⟨c, hc, hhome⟩ : ∃ c ∈ path ++ [graphEntry], origin ∈ g.insts c ∨ origin ∈ g.live c := by
      obtain hmem | hmem := List.mem_append.mp (hread path hpath)
      · exact exists_of_mem_arrived hmem
      · exact ⟨path.headD graphEntry, by cases path <;> simp, .inl hmem⟩
    obtain ⟨-, back, -, hback, hhead⟩ := hpath.tail.suffix hc
    obtain rfl := hg.home_unique (hhead ▸ hback.reachable) hb hhome ha
    simp [hfresh, hne] at hc

end DrawnFrom

/-! ## What is preserved -/

variable {M : Type} {m : Meaning M} {s s' : State M} {R : Value → Value → Prop}

theorem Step.crosses (ht : Traceable g) (hstep : Step g m s s') (hb : g.Reachable s.block)
    (hinsts : g.insts s.block = front ++ s.rest)
    (hterm : ∀ i rest n, s.rest = i :: rest → g.nodes[i.index]? = some n → n.inst.isTerminator = true) :
    g.Edge s.block s'.block ∧ Crosses g s.block s'.block s.values s'.values := by
  cases hstep with
  | define hn hdef =>
    have := hterm _ _ _ rfl hn
    rw [not_isTerminator_of_isDefinition hdef] at this
    cases this
  | pass hn _ hnot =>
    have := hterm _ _ _ rfl hn
    rw [hnot] at this
    cases this
  | jump hn hjump hc _ _ _ hcross => exact ⟨ht.edge hb (by rw [hinsts]; simp) hn hc, hcross⟩
  | begin hc hcross => exact ⟨hc, hcross⟩

/-- Both definitions have values, which are related. -/
def Related (R : Value → Value → Prop) (σ : Values) (origin d : InstId) : Prop :=
  ∃ w v, σ origin = some w ∧ σ d = some v ∧ R w v

theorem Related.congr {σ σ' : Values} (h : Related R σ origin d) (horigin : σ' origin = σ origin) (hd : σ' d = σ d) :
    Related R σ' origin d := by
  obtain ⟨w, v, hw, hv, hR⟩ := h
  exact ⟨w, v, horigin.trans hw, hd.trans hv, hR⟩

/-- Wherever executions come to a member, its value is related to that of the origin if what it reads of the members
is. -/
def Passes (g : FlowGraph) (m : Meaning M) (R : Value → Value → Prop) (origin : InstId) (ds : Set InstId) : Prop :=
  ∀ s i rest n v μ, Reaches g m s → s.rest = i :: rest → i ∈ ds → g.nodes[i.index]? = some n →
    m.does s.values s.memory i n.inst (some v) μ → (∀ a ∈ n.inst.args, a ∈ ds → Related R s.values origin a) →
    ∃ w, s.values origin = some w ∧ R w v

namespace DrawnFrom

variable (h : DrawnFrom g origin ds) (hg : Definite g) (hrefl : ∀ v, R v v) (hpasses : Passes g m R origin ds)

include h hg

theorem ne_origin (hd : d ∈ ds) (hscope : InScope g b front d) (hb : g.Reachable b)
    (hsplit : g.insts b = front ++ i :: rest) : origin ≠ i := by
  rintro rfl
  obtain ⟨a, hdom, hhome⟩ := id hscope
  obtain hinitial | hahead := h.ahead hg hd (hdom.reachable hb) (hhome.symm.imp And.left id)
  · exact hg.not_initial (by simp [hsplit] : origin ∈ g.insts b) hinitial
  · exact hg.not_ahead_of_inScope hscope hb hsplit hahead

theorem not_live_origin (hd : d ∈ ds) (hscope : InScope g c [] d) (hc : g.Reachable c) : ¬ LivePhi g c origin := by
  intro hlive
  obtain ⟨a, hdom, hhome⟩ := id hscope
  obtain hinitial | hahead := h.ahead hg hd (hdom.reachable hc) (hhome.symm.imp And.left id)
  · exact hg.not_initial_of_livePhi hlive hinitial
  · exact hg.not_ahead_of_live hscope hc (hg.live_of_livePhi hc hlive) hahead

theorem inScope_input {n : Node} (hb : g.Reachable b) (hsplit : g.insts b = front ++ i :: rest)
    (hn : g.nodes[i.index]? = some n) (ha : e ∈ n.inst.args) (hads : e ∈ ds) : InScope g b front e := by
  have hmem : i ∈ g.insts b := by simp [hsplit]
  exact hg.inScope_of_precedes ((hg.precedes_input hb hmem hn ha).resolve_left (h.not_initial e hads)) hsplit

theorem inScope_taken {phi : InstId} {k : Nat} (hb : g.Reachable b) (hedge : g.Edge b c) (hphi : LivePhi g c phi)
    (hk : (predsOf g c)[k]? = some b) (hinput : inputOf g phi k = some e) (hads : e ∈ ds) :
    InScope g b (g.insts b) e := by
  have hread (path : List BlockId) (hpath : g.IsPath path) (hhead : path.headD graphEntry = b) :
      e ∈ g.arrived path ++ g.insts b := by
    subst hhead
    exact (hg.evaluated_on_edge hpath hedge hphi hk hinput).resolve_left (h.not_initial e hads)
  obtain ⟨a, ha, hdom⟩ := hg.exists_home hb hread
  exact ⟨a, hdom, ha.symm.imp_right fun ha => ⟨ha, fun h => h ▸ ha⟩⟩

include hpasses

theorem related_within {σ : Values} {μ : M} {n : Node} (hs : Follows g m path front ⟨b, i :: rest, σ, μ⟩)
    (hn : g.nodes[i.index]? = some n) (hterm : n.inst.isTerminator = false) (hstep : Step g m ⟨b, i :: rest, σ, μ⟩ s')
    (ih : ∀ e ∈ ds, InScope g b front e → Related R σ origin e) (hd : d ∈ ds)
    (hscope : InScope g s'.block (front ++ [i]) d) : Related R s'.values origin d := by
  obtain ⟨hpath, hblock, hinsts⟩ := hs.sound hg.traceable
  have hb : g.Reachable b := by
    rw [show b = path.headD graphEntry from hblock]
    exact hpath.reachable
  have hbehind (hne : d ≠ i) (hscope : InScope g b (front ++ [i]) d) : InScope g b front d := by
    obtain ⟨a, hdom, hhome⟩ := hscope
    refine ⟨a, hdom, hhome.imp_right fun hhere => ⟨hhere.1, fun heq => ?_⟩⟩
    exact (List.mem_append.mp (hhere.2 heq)).resolve_right (by simpa using hne)
  cases hstep with
  | define hn' _ _ hdoes =>
    obtain rfl := Option.some_inj.mp (hn.symm.trans hn')
    by_cases hdi : d = i
    · subst hdi
      have hinput (e : InstId) (he : e ∈ n.inst.args) (heds : e ∈ ds) : InScope g b front e :=
        h.inScope_input hg hb hinsts hn he heds
      obtain ⟨-, e, he, heds⟩ := h.inputs d hd b (by rw [hinsts]; simp) n hn
      obtain ⟨w, hw, hR⟩ := hpasses _ d rest n _ _ hs.reaches rfl hd hn hdoes fun e he heds =>
        ih e heds (hinput e he heds)
      have hne := h.ne_origin hg heds (hinput e he heds) hb hinsts
      exact ⟨w, _, (Function.update_of_ne hne ..).trans hw, Function.update_self .., hR⟩
    · have hne := h.ne_origin hg hd (hbehind hdi hscope) hb hinsts
      exact (ih d hd (hbehind hdi hscope)).congr (Function.update_of_ne hne ..) (Function.update_of_ne hdi ..)
  | pass hn' hnot =>
    obtain rfl := Option.some_inj.mp (hn.symm.trans hn')
    refine ih d hd (hbehind ?_ hscope)
    rintro rfl
    rw [(h.inputs d hd b (by rw [hinsts]; simp) n hn).1] at hnot
    cases hnot
  | jump hn' hjump =>
    obtain rfl := Option.some_inj.mp (hn.symm.trans hn')
    rw [hterm] at hjump
    cases hjump

include hrefl

theorem related_across (hs : Follows g m path front s)
    (hterm : ∀ i rest n, s.rest = i :: rest → g.nodes[i.index]? = some n → n.inst.isTerminator = true)
    (hstep : Step g m s s') (ih : ∀ e ∈ ds, InScope g s.block front e → Related R s.values origin e) (hd : d ∈ ds)
    (hscope : InScope g s'.block [] d) : Related R s'.values origin d := by
  obtain ⟨hpath, hblock, hinsts⟩ := hs.sound hg.traceable
  have hb : g.Reachable s.block := hblock ▸ hpath.reachable
  obtain ⟨hedge, k, hk, hcross⟩ := hstep.crosses hg.traceable hb hinsts hterm
  have hc := hb.tail hedge
  -- Nothing but the end of the block has still to come, and that is no member.
  have hended (e : InstId) (he : e ∈ ds) (hscope : InScope g s.block (g.insts s.block) e) :
    InScope g s.block front e := by
    obtain ⟨a, hdom, hhome⟩ := hscope
    refine ⟨a, hdom, hhome.imp_right fun hhere => ⟨hhere.1, ?_⟩⟩
    rintro rfl
    have hmem := hhere.1
    rw [hinsts, List.mem_append] at hmem
    refine hmem.resolve_right fun hrest => ?_
    obtain ⟨n, hn, hend⟩ := (hstep.across hg.traceable hb hinsts hterm).2.1 e hrest
    have hdef := (h.inputs e he _ (by rw [hinsts]; exact List.mem_append_right _ hrest) n hn).1
    rw [not_isTerminator_of_isDefinition hdef] at hend
    cases hend
  have horigin : s'.values origin = s.values origin := (hcross origin).2 (h.not_live_origin hg hd hscope hc)
  by_cases hphi : LivePhi g s'.block d
  · obtain ⟨a, v, hinput, ha, hv⟩ := (hcross d).1 hphi
    obtain ⟨n, hn, harg⟩ := Option.bind_eq_some_iff.mp hinput
    obtain rfl | hads := h.phis d hd _ (hg.live_of_livePhi hc hphi) n hn a (List.mem_of_getElem? harg)
    · exact ⟨v, v, horigin.trans ha, hv, hrefl v⟩
    · obtain ⟨w, v', hw, hv', hR⟩ := ih a hads (hended a hads (h.inScope_taken hg hb hedge hphi hk hinput hads))
      obtain rfl := Option.some_inj.mp (ha.symm.trans hv')
      exact ⟨w, v, horigin.trans hw, hv, hR⟩
  · have hlive : d ∉ g.live s'.block := fun hlive => hphi (live_iff.mp hlive).choose_spec.2
    exact (ih d hd (hended d hd (hscope.of_edge hedge hlive))).congr horigin ((hcross d).2 hphi)

/-- Wherever executions come, the members that are in scope are related to the origin. -/
theorem related (hs : Follows g m path front s) (hd : d ∈ ds) (hscope : InScope g s.block front d) :
    Related R s.values origin d := by
  induction hs generalizing d with
  | start hs =>
    obtain ⟨a, hdom, hhome⟩ := hscope
    rw [hs.block] at hdom
    obtain rfl := dominates_graphEntry_iff.mp hdom
    rw [hg.phisApart.entry, hg.entry] at hhome
    simp at hhome
  | within hfollows hn hterm hstep ih =>
    exact h.related_within hg hpasses hfollows hn hterm hstep (fun e he => ih he) hd hscope
  | across hfollows hterm hstep ih =>
    exact h.related_across hg hrefl hpasses hfollows hterm hstep (fun e he => ih he) hd hscope

end DrawnFrom

end Midend.Execution

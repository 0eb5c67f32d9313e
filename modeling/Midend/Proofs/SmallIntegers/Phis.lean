import Midend.Proofs.Classes.Rest
import Midend.Proofs.SmallIntegers.Walk

/-! # Phis of small integers

A phi is taken for a small integer first, and the assumption is taken back where an input does not bear it out. Whenever
it is taken back for one phi, those that read the phi are looked at again. So at the end small integers flow into every
phi that has become one.
-/

namespace Midend.SmallIntegers

open Midend.Flow FlowGraph Ssa Execution Classes

variable {g h : FlowGraph} {d x y : InstId} {n : Node} {c : ClassId} {phis stack users : List InstId}

/-! ## Recorded classes -/

theorem classOf_record (hn : g.nodes[d.index]? = some n) :
    (g.withNode d fun n => { n with cls := some c }).classOf x = if x = d then .ok c else g.classOf x := by
  unfold classOf node
  rw [nodes_withNode]
  by_cases hx : x = d
  · subst hx
    simp [hn, orFault, bind, Except.bind, pure, Except.pure]
  · simp [hx]

theorem useClass_eq_ok {k : Nat} : g.useClass x k = .ok c ↔ g.reachingClass? ⟨x, k⟩ = some c ∨
    g.reachingClass? ⟨x, k⟩ = none ∧ ∃ d, inputOf g x k = some d ∧ g.classOf d = .ok c := by
  unfold useClass
  split
  case h_1 cls hcls => simp [hcls, pure_eq_ok]
  case h_2 hnone =>
    simp only [hnone, bind_eq_ok, arg_eq_ok, inputOf, Option.bind_eq_some_iff, reduceCtorEq, true_and, false_or]

/-- Small integers flow into all inputs of the phi. -/
def AllSmi (g : FlowGraph) (x : InstId) : Prop :=
  ∀ n, g.nodes[x.index]? = some n → ∀ k < n.inst.args.length, g.useClass x k = .ok .smi

theorem allSmi_of_allInputs (hall : allInputs g x isSmi = .ok true) : AllSmi g x := by
  intro n hn k hk
  obtain ⟨as, has, hall⟩ := bind_eq_ok.mp hall
  obtain ⟨m, hm, rfl⟩ := args_eq_ok.mp has
  obtain rfl := Option.some_inj.mp (hn.symm.trans hm)
  obtain ⟨cls, hcls, hsmi⟩ := bind_eq_ok.mp (allM_eq_true hall k (List.mem_range.mpr hk))
  rw [hcls, eq_of_beq (pure_eq_ok.mp hsmi)]

/-! ## Graphs that differ in classes -/

def IsPhi (g : FlowGraph) (x : InstId) : Prop := ∃ n, g.nodes[x.index]? = some n ∧ n.inst.opcode = .phi

/-- A phi that is on the list of every definition it reads. -/
structure Listed (g : FlowGraph) (x : InstId) : Prop where
  isPhi : IsPhi g x
  listed : ∀ k d, inputOf g x k = some d → ∃ m, g.nodes[d.index]? = some m ∧ ⟨x, k⟩ ∈ m.inputUses

section

variable (honly : OnlyClasses g h)

include honly

theorem isPhi_iff_of_only : IsPhi h x ↔ IsPhi g x := by
  constructor
  · rintro ⟨n, hn, hop⟩
    obtain ⟨cls, hn'⟩ := honly.symm.node hn
    exact ⟨_, hn', hop⟩
  · rintro ⟨n, hn, hop⟩
    obtain ⟨cls, hn'⟩ := honly.node hn
    exact ⟨_, hn', hop⟩

theorem inputOf_of_only (k : Nat) : inputOf h x k = inputOf g x k := by
  obtain ⟨κ, rfl⟩ := honly
  unfold inputOf
  rw [nodes_mapNodes]
  cases g.nodes[x.index]? <;> rfl

theorem Listed.of_only (hx : Listed g x) : Listed h x := by
  refine ⟨(isPhi_iff_of_only honly).mpr hx.isPhi, fun k d hd => ?_⟩
  obtain ⟨m, hm, hmem⟩ := hx.listed k d (inputOf_of_only honly k ▸ hd)
  obtain ⟨cls, hm'⟩ := honly.node hm
  exact ⟨_, hm', hmem⟩

end

theorem AllSmi.record (hy : h.nodes[y.index]? = some n) (hall : AllSmi h x) (hreads : ∀ k, inputOf h x k ≠ some y) :
    AllSmi (h.withNode y fun n => { n with cls := some c }) x := by
  have honly := OnlyClasses.withNode h y c
  intro m' hm' k hk
  obtain ⟨cls, hm⟩ := honly.symm.node hm'
  refine useClass_eq_ok.mpr ((useClass_eq_ok.mp (hall _ hm k hk)).imp id ?_)
  rintro ⟨hnone, d, hd, hsmi⟩
  refine ⟨hnone, d, inputOf_of_only honly k ▸ hd, ?_⟩
  rw [classOf_record hy, if_neg]
  · exact hsmi
  · rintro rfl
    exact hreads k hd

/-! ## Users -/

theorem mem_usingPhis_iff (husers : usingPhis g d = .ok users) :
    x ∈ users ↔ IsPhi g x ∧ ∃ m, g.nodes[d.index]? = some m ∧ ∃ u ∈ m.inputUses, u.user = x := by
  obtain ⟨us, hus, husers⟩ := bind_eq_ok.mp husers
  obtain ⟨m, hm, rfl⟩ := inputUses_eq_ok.mp hus
  obtain ⟨-, rfl⟩ := filterM_eq_ok.mp husers
  rw [List.mem_filter, List.mem_map, and_comm, decide_eq_true_eq, toOption_eq_some_iff]
  refine and_congr ?_ ⟨fun h => ⟨m, hm, h⟩, fun ⟨m', hm', h⟩ => ?_⟩
  · simp only [bind_eq_ok, pure_eq_ok, opcode_eq_ok, beq_iff_eq]
    exact ⟨fun ⟨_, ⟨n, hn, hop⟩, heq⟩ => ⟨n, hn, hop.trans heq⟩, fun h => ⟨_, h, rfl⟩⟩
  · obtain rfl := Option.some_inj.mp (hm.symm.trans hm')
    exact h

def Candidate (g : FlowGraph) (x : InstId) : Prop := IsPhi g x ∨ ∃ c, x ∈ phisOf g c

/-! ## Assuming -/

/-- Only phis on the list have been taken for small integers. -/
structure Assumed (g h : FlowGraph) (phis : List InstId) : Prop where
  only : OnlyClasses g h
  classes : ∀ d, h.classOf d = g.classOf d ∨ d ∈ phis
  candidates : ∀ x ∈ phis, Candidate g x

theorem leads_enqueuePossible :
    Leads True h (enqueuePossible phis x) fun phis' h' => h' = h ∧ (phis' = phis ∨ phis' = enqueue x phis) := by
  unfold enqueuePossible
  rw [Leads.bind_iff, Leads.get_iff, Leads.bind_iff, Leads.lift_iff]
  refine Yields.of_ok fun _ _ => Leads.ite_iff.mpr ⟨fun _ => ⟨rfl, .inl rfl⟩, fun _ => ?_⟩
  rw [Leads.bind_iff, Leads.lift_iff]
  refine Yields.of_ok fun possible _ => ⟨rfl, ?_⟩
  cases possible with
  | false => exact .inl rfl
  | true => exact .inr rfl

theorem leads_promote (steps k : Nat) (ha : Assumed g h phis) :
    Leads True h (promote steps k phis) fun phis' h' => Assumed g h' phis' := by
  induction steps generalizing h k phis with
  | zero => exact trivial
  | succ steps ih =>
    unfold promote
    split
    case h_1 => exact ha
    case h_2 phi hphi =>
      have hmem : phi ∈ phis := List.mem_of_getElem? hphi
      rw [Leads.bind_iff, Leads.discard_iff]
      refine setClass_spec.mono ?_
      rintro _ _ ⟨n, hn, rfl⟩
      rw [Leads.bind_iff, Leads.get_iff, Leads.bind_iff, Leads.lift_iff]
      refine Yields.of_ok fun users husers => ?_
      have honly := ha.only.trans (.withNode h phi .smi)
      have ha' : Assumed g (h.withNode phi fun n => { n with cls := some .smi }) phis := by
        refine ⟨honly, fun d => ?_, ha.candidates⟩
        rw [classOf_record hn]
        split
        case isTrue hd => exact .inr (hd ▸ hmem)
        case isFalse => exact ha.classes d
      rw [Leads.bind_iff]
      refine (Leads.foldlM (fun _ phis' h' => Assumed g h' phis' ∧ h' = _) ⟨ha', rfl⟩ ?_).mono ?_
      · rintro done x rest phis' _ hall ⟨hinv, rfl⟩
        have hx : IsPhi g x := (isPhi_iff_of_only honly).mp ((mem_usingPhis_iff husers).mp (by simp [hall])).1
        refine leads_enqueuePossible.mono ?_
        rintro _ _ ⟨rfl, rfl | rfl⟩
        · exact ⟨hinv, rfl⟩
        · refine ⟨⟨hinv.only, fun d => (hinv.classes d).imp_right fun h => mem_enqueue.mpr (.inr h), fun y hy => ?_⟩,
            rfl⟩
          obtain rfl | hy := mem_enqueue.mp hy
          · exact .inl hx
          · exact hinv.candidates y hy
      · rintro phis' _ ⟨hinv, rfl⟩
        exact ih (k + 1) hinv

/-! ## Taking back -/

/-- A phi that was taken for a small integer and still is one is on the stack, or small integers flow into it. -/
structure Doubted (g h : FlowGraph) (stack : List InstId) : Prop where
  only : OnlyClasses g h
  candidates : ∀ x, h.classOf x = .ok .smi → g.classOf x = .ok .smi ∨ Candidate g x
  borneOut : ∀ x, Listed g x → h.classOf x = .ok .smi → g.classOf x = .ok .smi ∨ x ∈ stack ∨ AllSmi h x

theorem Assumed.doubted (ha : Assumed g h phis) : Doubted g h phis.reverse where
  only := ha.only
  candidates x hx := by
    obtain hsame | hmem := ha.classes x
    · exact .inl (hsame ▸ hx)
    · exact .inr (ha.candidates x hmem)
  borneOut x _ hx := by
    obtain hsame | hmem := ha.classes x
    · exact .inl (hsame ▸ hx)
    · exact .inr (.inl (List.mem_reverse.mpr hmem))

theorem leads_pushDoubtful :
    Leads True h (pushDoubtful stack x) fun stack' h' => h' = h ∧ stack ⊆ stack' ∧
      (h.classOf x = .ok .smi → x ∈ stack') := by
  unfold pushDoubtful
  rw [Leads.bind_iff, Leads.get_iff, Leads.bind_iff, Leads.lift_iff]
  refine Yields.of_ok fun cls hcls => Leads.ite_iff.mpr ⟨fun _ => ?_, fun hnot => ?_⟩
  · exact ⟨rfl, List.subset_cons_self x stack, fun _ => List.mem_cons_self⟩
  · refine ⟨rfl, List.Subset.refl stack, fun hsmi => ?_⟩
    obtain rfl := Except.ok.inj (hcls.symm.trans hsmi)
    simpa using hnot

/-- Once a phi is taken back and all that read it are on the stack, the others are still borne out. -/
theorem Doubted.takeBack (hd : Doubted g h (y :: stack)) (hn : h.nodes[y.index]? = some n) {stack' : List InstId}
    (hsub : stack ⊆ stack')
    (hreaders : ∀ x k, Listed g x → inputOf g x k = some y → x ≠ y → h.classOf x = .ok .smi → x ∈ stack') :
    Doubted g (h.withNode y fun n => { n with cls := some .dynamic }) stack' := by
  have hclass {x : InstId} (hx : (h.withNode y fun n => { n with cls := some .dynamic }).classOf x = .ok .smi) :
      x ≠ y ∧ h.classOf x = .ok .smi := by
    rw [classOf_record hn] at hx
    split at hx
    · cases hx
    · exact ⟨‹_›, hx⟩
  refine ⟨hd.only.trans (.withNode h y .dynamic), fun x hx => hd.candidates x (hclass hx).2, fun x hlisted hx => ?_⟩
  obtain ⟨hne, hsmi⟩ := hclass hx
  refine (hd.borneOut x hlisted hsmi).imp_right fun hx => ?_
  by_cases hreads : ∃ k, inputOf g x k = some y
  · obtain ⟨k, hk⟩ := hreads
    exact .inl (hreaders x k hlisted hk hne hsmi)
  · refine hx.imp (fun hmem => hsub ((List.mem_cons.mp hmem).resolve_left hne)) fun hall => hall.record hn fun k hk =>
      ?_
    exact hreads ⟨k, inputOf_of_only hd.only k ▸ hk⟩

theorem leads_demote (steps : Nat) (stack : List InstId) (hd : Doubted g h stack) :
    Leads True h (demote steps stack) fun _ h' => Doubted g h' [] := by
  induction steps generalizing h stack with
  | zero =>
    cases stack with
    | nil => exact hd
    | cons => exact trivial
  | succ steps ih =>
    cases stack with
    | nil => exact hd
    | cons y stack =>
      unfold demote
      rw [Leads.bind_iff, Leads.get_iff, Leads.bind_iff, Leads.lift_iff]
      refine Yields.of_ok fun all hall => Leads.ite_iff.mpr ⟨fun htrue => ?_, fun _ => ?_⟩
      · refine ih stack ⟨hd.only, hd.candidates, fun x hlisted hx => (hd.borneOut x hlisted hx).imp_right ?_⟩
        rintro (hmem | hx)
        · obtain rfl | hmem := List.mem_cons.mp hmem
          · exact .inr (allSmi_of_allInputs (htrue ▸ hall))
          · exact .inl hmem
        · exact .inr hx
      · rw [Leads.bind_iff, Leads.discard_iff]
        refine setClass_spec.mono ?_
        rintro _ _ ⟨n, hn, rfl⟩
        rw [Leads.bind_iff, Leads.get_iff, Leads.bind_iff, Leads.lift_iff]
        refine Yields.of_ok fun users husers => ?_
        rw [Leads.bind_iff]
        refine (Leads.foldlM (fun done stack' h' => h' = (h.withNode y fun n => { n with cls := some .dynamic }) ∧
          stack ⊆ stack' ∧ ∀ x ∈ done, h'.classOf x = .ok .smi → x ∈ stack')
          ⟨rfl, List.Subset.refl _, fun _ h => by cases h⟩ ?_).mono ?_
        · rintro done x rest stack' _ - ⟨rfl, hsub, hpushed⟩
          refine leads_pushDoubtful.mono ?_
          rintro stack'' _ ⟨rfl, hsub', hx⟩
          refine ⟨rfl, List.Subset.trans hsub hsub', fun z hz hsmi => ?_⟩
          obtain hz | hz := List.mem_append.mp hz
          · exact hsub' (hpushed z hz hsmi)
          · obtain rfl := List.mem_singleton.mp hz
            exact hx hsmi
        · rintro stack' _ ⟨rfl, hsub, hpushed⟩
          refine ih stack' (hd.takeBack hn hsub fun x k hlisted hk hne hsmi => hpushed x ?_ ?_)
          · have honly := hd.only.trans (.withNode h y .dynamic)
            have hlisted' := hlisted.of_only honly
            obtain ⟨m, hm, hmem⟩ := hlisted'.listed k y (inputOf_of_only honly k ▸ hk)
            exact (mem_usingPhis_iff husers).mpr ⟨hlisted'.isPhi, m, hm, _, hmem, rfl⟩
          · rw [classOf_record hn, if_neg hne]
            exact hsmi

/-! ## The pass -/

/-- What the pass has made of `g`. Marked uses have their reasons, and what has become a small integer has nothing else
for inputs. -/
structure Propagated (g g' : FlowGraph) : Prop where
  rest : ∃ reaching, OnlyClasses { g with reaching } g'
  reaching : ∀ u, g'.reachingClass? u = g.reachingClass? u ∨ g'.reachingClass? u = some .smi ∧ Justified g u
  candidates : ∀ x, g'.classOf x = .ok .smi → g.classOf x = .ok .smi ∨ Candidate g x
  inputs : ∀ x, Listed g x → g'.classOf x = .ok .smi → g.classOf x = .ok .smi ∨ AllSmi g' x

theorem leads_propagateSmis (hg : Definite g) (hexact : ExactDominators g g) :
    Leads True g propagateSmis fun _ g' => Propagated g g' := by
  unfold propagateSmis
  dsimp only
  rw [Leads.bind_iff, Leads.get_iff, Leads.bind_iff, Leads.lift_iff]
  refine Yields.of_ok fun checked hchecked => ?_
  have hempty : Known g graphEntry [] checked.members := fun k hk => by
    have := NumberSet.contains_of_ofCapacity hchecked k
    simp [NumberSet.contains, hk] at this
  rw [Leads.bind_iff]
  refine Leads.mono (walks_walk hg hexact (g.blocks.size + 1) (.refl g) .refl hempty) ?_
  rintro ⟨_, p⟩ _ ⟨hm, -⟩
  obtain ⟨reaching, rfl⟩ := hm.rest
  have ha : Assumed { g with reaching } { g with reaching } p.phis :=
    ⟨.refl _, fun _ => .inl rfl, fun x hx => .inr (hm.phis x hx)⟩
  rw [Leads.bind_iff]
  refine (leads_promote (g.nodes.size + 1) 0 ha).mono fun phis h ha' => ?_
  rw [Leads.bind_iff]
  refine (leads_demote ((g.nodes.size + 1) * (g.nodes.size + 1)) phis.reverse ha'.doubted).mono fun _ g' hd => ?_
  rw [Leads.bind_iff, Leads.get_iff, Leads.bind_iff, Leads.lift_iff]
  refine Yields.of_ok fun found _ => ⟨⟨reaching, hd.only⟩, fun u => ?_, hd.candidates, fun x hlisted hx => ?_⟩
  · rw [reachingClass?, hd.only.reaching]
    exact hm.reaching u
  · exact (hd.borneOut x ⟨hlisted.isPhi, hlisted.listed⟩ hx).imp_right fun h => h.resolve_left (by simp)

end Midend.SmallIntegers

import Midend.Proofs.Constants.Settled

/-! # What executions find

Wherever an execution comes, the analysis was there, and the values that were computed are among those that it leaves
open.
-/

namespace Midend.Constants

open Execution Ssa

variable {g : FlowGraph} {f : Facts} {s s' : State Unit}

/-- The analysis has seen the block, and covers the values. -/
structure Covered (g : FlowGraph) (f : Facts) (s : State Unit) : Prop where
  reachable : f.isReachable s.block = true
  path : g.Reachable s.block
  rest : s.rest <:+ g.insts s.block
  entry : s.block = FlowGraph.graphEntry → s.rest = []
  values : ∀ d v, s.values d = some v → (f.value d).Covers v

theorem Covered.inputs (h : Covered g f s) {e : Inst} (hargs : ∀ a ∈ e.args, (s.values a).isSome = true) :
    InputsCovered f s.values e := by
  intro a ha
  obtain ⟨v, hv⟩ := Option.isSome_iff_exists.mp (hargs a ha)
  exact ⟨v, hv, h.values a v hv⟩

theorem Covered.start (hform : SsaForm g) (hsettles : Settles g f) (h : Start g s) : Covered g f s where
  reachable := by rw [h.block]; exact hsettles.entry
  path := by rw [h.block]; exact .refl
  rest := by rw [h.rest]; exact List.nil_suffix
  entry _ := h.rest
  values d v hv := by
    by_cases hd : d ∈ g.initialDefinitions
    · obtain ⟨n, w, hn, hw, hconstant⟩ := h.initial d hd
      obtain rfl := Option.some_inj.mp (hv.symm.trans hw)
      have hsettled := hsettles.initial d hd n hn
      obtain ⟨m, hm, hgiven⟩ := hform.initial d hd
      obtain rfl := Option.some_inj.mp (hn.symm.trans hm)
      obtain ⟨c, hc⟩ | ⟨k, hk⟩ := Inst.eq_of_isGiven hgiven
      · obtain ⟨r, hr, hbelow⟩ := hsettled.value (by rw [hc]; rfl)
        rw [hc] at hr
        rw [hconstant c hc]
        exact hbelow _ (Except.ok.inj hr).symm _ (Knowledge.Covers.constant c)
      · obtain ⟨r, hr, hbelow⟩ := hsettled.value (by rw [hk]; rfl)
        rw [hk] at hr
        exact hbelow _ (Except.ok.inj hr).symm _ trivial
    · rw [h.others d hd] at hv
      cases hv

theorem Covered.crosses (hsettles : Settles g f) {b c : BlockId} {σ σ' : Values} (hb : g.Reachable b)
    (hbr : f.isReachable b = true) (hc : g.Reachable c) (hcr : f.isReachable c = true) (hedge : g.Edge b c)
    (hvalues : ∀ d v, σ d = some v → (f.value d).Covers v) (hcross : Crosses g b c σ σ') :
    ∀ d v, σ' d = some v → (f.value d).Covers v := by
  obtain ⟨k, hk, htakes⟩ := hcross
  intro d v hv
  by_cases hlive : LivePhi g c d
  · obtain ⟨a, w, ha, hw, hd⟩ := (htakes d).1 hlive
    obtain rfl := Option.some_inj.mp (hv.symm.trans hd)
    exact hsettles.phis c hc hcr d hlive k b a hk hb hedge hbr ha v (hvalues a v hw)
  · rw [(htakes d).2 hlive] at hv
    exact hvalues d v hv

/-- The analysis has reached every block that a terminator goes to. -/
theorem Covered.successor (hsettles : Settles g f) {b c : BlockId} {i : InstId} {rest : List InstId} {σ : Values}
    {n : Node} (h : Covered g f ⟨b, i :: rest, σ, ()⟩) (hn : g.nodes[i.index]? = some n) (hc : c ∈ n.inst.successors)
    (hargs : ∀ a ∈ n.inst.args, (σ a).isSome = true) (hdoes : (exact g).does σ () i n.inst none ())
    (hgoes : (exact g).goes σ i n.inst c) : f.isReachable c = true := by
  have hne : b ≠ FlowGraph.graphEntry := fun hb => by cases h.entry hb
  have hsettled := hsettles.insts b h.path hne h.reachable i (h.rest.subset List.mem_cons_self) n hn
  have hinputs := h.inputs hargs
  revert hc hdoes hgoes hinputs
  cases hinst : n.inst with
  | goto t =>
    intro hc _ _ _
    obtain rfl := List.mem_singleton.mp hc
    exact hsettled.goto c hinst
  | branch cmp onTrue onFalse =>
    rintro - ⟨-, hclasses, -⟩ ⟨outcome, houtcome, rfl⟩ hinputs
    obtain ⟨x, hx, htrue, hfalse⟩ := hsettled.branch cmp onTrue onFalse hinst
    have hcovers := covers_compareValue rfl hinputs hclasses houtcome hx
    cases outcome with
    | true => exact htrue hcovers
    | false => exact hfalse hcovers
  | _ => intro hc; simp [Inst.successors] at hc

theorem Covered.step (hform : SsaForm g) (hsettles : Settles g f) (h : Covered g f s) (hstep : Step g (exact g) s s') :
    Covered g f s' := by
  cases hstep with
  | @define b i rest σ _ _ n v hn hdef hargs hdoes =>
    have hne : b ≠ FlowGraph.graphEntry := fun hb => by cases h.entry hb
    have hsettled := hsettles.insts b h.path hne h.reachable i (h.rest.subset List.mem_cons_self) n hn
    obtain ⟨r, hr, hbelow⟩ := hsettled.value hdoes.1
    obtain ⟨x, rfl, hx⟩ := covers_transfer (h.inputs hargs) hdef hdoes hr
    refine ⟨h.reachable, h.path, (List.suffix_cons i rest).trans h.rest, fun hb => absurd hb hne, fun d w hw => ?_⟩
    by_cases hd : d = i
    · subst hd
      obtain rfl : v = w := by simpa using hw
      exact hbelow x rfl v hx
    · exact h.values d w (by simpa [hd] using hw)
  | @pass b i rest σ _ _ n hn hdef hterm hargs hdoes =>
    have hne : b ≠ FlowGraph.graphEntry := fun hb => by cases h.entry hb
    exact ⟨h.reachable, h.path, (List.suffix_cons i rest).trans h.rest, fun hb => absurd hb hne, h.values⟩
  | @jump b c i rest σ σ' _ _ n hn hterm hc hargs hdoes hgoes hcross =>
    have hne : b ≠ FlowGraph.graphEntry := fun hb => by cases h.entry hb
    have hedge := hform.edge_of_mem h.path hne (h.rest.subset List.mem_cons_self) hn hterm hc
    have hpath : g.Reachable c := h.path.tail hedge
    have hreach := h.successor hsettles hn hc hargs hdoes hgoes
    refine ⟨hreach, hpath, List.suffix_refl _, fun hentry => ?_, ?_⟩
    · rw [show c = FlowGraph.graphEntry from hentry] at hedge
      exact absurd hedge (hform.entry b h.path)
    · exact Covered.crosses hsettles h.path h.reachable hpath hreach hedge h.values hcross
  | @begin c σ σ' _ hc hcross =>
    have hpath : g.Reachable c := h.path.tail hc
    have hreach := hsettles.start c hc
    refine ⟨hreach, hpath, List.suffix_refl _, fun hentry => ?_, ?_⟩
    · rw [show c = FlowGraph.graphEntry from hentry] at hc
      exact absurd hc (hform.entry _ .refl)
    · exact Covered.crosses hsettles h.path h.reachable hpath hreach hc h.values hcross

theorem covered_of_reaches (hform : SsaForm g) (hsettles : Settles g f) (h : Reaches g (exact g) s) : Covered g f s :=
  h.induction (Covered g f) (fun _ hs => .start hform hsettles hs) fun _ _ _ hs hstep => hs.step hform hsettles hstep

end Midend.Constants

import Midend.Proofs.Loads.Rewriting

/-! # What stands in for a definition

A load that was taken out remembers the definition it gave way to, and so does a phi that turned out to be redundant.
Following these pointers leads to the definition that is read in its place.
-/

namespace Midend.Loads

open Midend.Flow FlowGraph Ssa Execution

variable {g h h' : FlowGraph} {ρ : InstId → InstId} {made : InstId → Option Merge} {b c : BlockId}
  {d i old new phi v : InstId} {n : Node} {p : Progress} {α β : Type} {fault : Prop}

/-! ## Pointers -/

def Replaces (h : FlowGraph) (d r : InstId) : Prop := ∃ n, h.nodes[d.index]? = some n ∧ n.replacement = some r

/-- Something that `g` evaluates, or a phi that was made. -/
def Source (g : FlowGraph) (made : InstId → Option Merge) (d : InstId) : Prop := Evaluates g d ∨ (made d).isSome = true

theorem Source.mono {made' : InstId → Option Merge} (hd : Source g made d)
    (hmade : ∀ d m, made d = some m → made' d = some m) : Source g made' d := by
  refine hd.imp_right fun hsome => ?_
  obtain ⟨m, hm⟩ := Option.isSome_iff_exists.mp hsome
  rw [hmade d m hm]
  rfl

structure Resolves (g h : FlowGraph) (ρ : InstId → InstId) (made : InstId → Option Merge) : Prop where
  idem : ∀ d, ρ (ρ d) = ρ d
  fresh : ∀ d : InstId, h.nodes.size ≤ d.index → ρ d = d
  ends : ∀ d n, Source g made d → h.nodes[d.index]? = some n → n.replacement = none → ρ d = d
  follows : ∀ d r, Source g made d → Replaces h d r → ρ d = ρ r ∧ Source g made r
  chain : ∀ d, Source g made d → Relation.ReflTransGen (Replaces h) d (ρ d)
  stays : ∀ d r, Evaluates g d → g.isPlaced d = false ∨ h.isPlaced d = true → ¬ Replaces h d r
  moved : ∀ d r, (made d).isSome = true → Replaces h d r → ρ d ≠ d

theorem Resolves.of_definite (hg : Definite g) : Resolves g g id fun _ => none := by
  have hnot (d r : InstId) (hd : Evaluates g d) : ¬ Replaces g d r := by
    rintro ⟨n, hn, hr⟩
    rw [hg.unreplaced d n hd hn] at hr
    cases hr
  refine ⟨fun _ => rfl, fun _ _ => rfl, fun _ _ _ _ _ => rfl, fun d r hd hr => ?_, fun _ _ => .refl,
    fun d r hd _ => hnot d r hd, fun _ _ hm => nomatch hm⟩
  exact absurd hr (hnot d r (hd.resolve_right Bool.false_ne_true))

namespace Resolves

theorem source (hr : Resolves g h ρ made) (hd : Source g made d) : Source g made (ρ d) := by
  have hchain : ∀ e, Relation.ReflTransGen (Replaces h) d e → Source g made e := by
    intro e he
    induction he with
    | refl => exact hd
    | tail _ hlast ih => exact (hr.follows _ _ ih hlast).2
  exact hchain _ (hr.chain d hd)

theorem congr (hr : Resolves g h ρ made) (hc : Changes h h' fun _ n n' => n'.replacement = n.replacement)
    (hplaced : ∀ d, h'.isPlaced d = true → h.isPlaced d = true) : Resolves g h' ρ made := by
  have hiff (d r : InstId) : Replaces h' d r ↔ Replaces h d r := by
    constructor
    · rintro ⟨n', hn', heq⟩
      obtain ⟨n, hn, hsame⟩ := hc.node d n' hn'
      exact ⟨n, hn, hsame ▸ heq⟩
    · rintro ⟨n, hn, heq⟩
      obtain ⟨n', hn', hsame⟩ := hc.exists_node hn
      exact ⟨n', hn', hsame ▸ heq⟩
  exact {
    idem := hr.idem
    fresh d hd := hr.fresh d (hc.size ▸ hd)
    ends d n' hd hn' hnone := by
      obtain ⟨n, hn, hsame⟩ := hc.node d n' hn'
      exact hr.ends d n hd hn (hsame ▸ hnone)
    follows d r hd hr' := hr.follows d r hd ((hiff d r).mp hr')
    chain d hd := Relation.ReflTransGen.mono (fun a e => (hiff a e).mpr) _ _ (hr.chain d hd)
    stays d r hd hstays hr' := hr.stays d r hd (hstays.imp_right (hplaced d)) ((hiff d r).mp hr')
    moved d r hd hr' := hr.moved d r hd ((hiff d r).mp hr') }

theorem resolve_eq (hr : Resolves g h ρ made) {steps : Nat} (hd : Source g made d) {r : InstId}
    (hok : resolveWithin h steps d = .ok r) : r = ρ d := by
  induction steps generalizing d with
  | zero => cases hok
  | succ steps ih =>
    unfold resolveWithin at hok
    obtain ⟨n, hn, hok⟩ := bind_eq_ok.mp hok
    have hn := node_eq_ok.mp hn
    cases hreplacement : n.replacement with
    | none =>
      rw [hreplacement] at hok
      exact (pure_eq_ok.mp hok).symm.trans (hr.ends d n hd hn hreplacement).symm
    | some e =>
      rw [hreplacement] at hok
      obtain ⟨heq, he⟩ := hr.follows d e hd ⟨n, hn, hreplacement⟩
      exact (ih he hok).trans heq.symm

end Resolves

theorem setReplacement_of_ok : Leads True h (setReplacement old new) fun _ h' => old.index < h.nodes.size ∧
    h' = h.withNode old fun n => { n with replacement := some new } := by
  unfold setReplacement
  rw [Leads.modifyNode_iff]
  exact ⟨fun hlt => ⟨hlt, rfl⟩, fun _ => trivial⟩

theorem Resolves.replace (hr : Resolves g h ρ made) (hsource : Source g made new)
    (hfixed : ρ old = old) (hfixed' : ρ new = new) (hlt : old.index < h.nodes.size) (hnone : ∀ r, ¬ Replaces h old r)
    (hgone : Evaluates g old → g.isPlaced old = true ∧ h.isPlaced old = false)
    (hmade : (made old).isSome = true → new ≠ old) :
    Resolves g (h.withNode old fun n => { n with replacement := some new }) (fun d => instead old new (ρ d)) made := by
  obtain ⟨o, ho⟩ : ∃ o, h.nodes[old.index]? = some o := ⟨_, Array.getElem?_eq_getElem hlt⟩
  have hother (d r : InstId) (hne : d ≠ old) :
      Replaces (h.withNode old fun n => { n with replacement := some new }) d r ↔ Replaces h d r := by
    unfold Replaces
    rw [nodes_withNode_ne hne]
  have hself (r : InstId) :
      Replaces (h.withNode old fun n => { n with replacement := some new }) old r ↔ r = new := by
    unfold Replaces
    rw [nodes_withNode_self, ho]
    simp [eq_comm]
  have hmono (d r : InstId) (hd : Replaces h d r) :
      Replaces (h.withNode old fun n => { n with replacement := some new }) d r := by
    by_cases heq : d = old
    · exact absurd (heq ▸ hd) (hnone r)
    · exact (hother d r heq).mpr hd
  refine ⟨fun d => ?_, fun d hd => ?_, fun d m hd hm hend => ?_, fun d r hd hd' => ?_, fun d hd => ?_,
    fun d r hd hstays hd' => ?_, fun d r hd hd' => ?_⟩
  · by_cases heq : ρ d = old
    · rw [heq, instead_self, hfixed', instead_new]
    · rw [instead_of_ne heq, hr.idem, instead_of_ne heq]
  · rw [size_withNode] at hd
    rw [hr.fresh d hd, instead_of_ne]
    rintro rfl
    exact Nat.not_lt.mpr hd hlt
  · rw [nodes_withNode] at hm
    obtain ⟨l, hl, rfl⟩ := Option.map_eq_some_iff.mp hm
    by_cases heq : d = old
    · rw [if_pos heq] at hend
      cases hend
    · rw [if_neg heq] at hend
      rw [hr.ends d l hd hl hend, instead_of_ne heq]
  · by_cases heq : d = old
    · subst heq
      obtain rfl := (hself r).mp hd'
      rw [hfixed, hfixed', instead_self, instead_new]
      exact ⟨rfl, hsource⟩
    · obtain ⟨hsame, hsource'⟩ := hr.follows d r hd ((hother d r heq).mp hd')
      exact ⟨congrArg _ hsame, hsource'⟩
  · have hchain := Relation.ReflTransGen.mono hmono _ _ (hr.chain d hd)
    by_cases heq : ρ d = old
    · rw [heq] at hchain ⊢
      rw [instead_self]
      exact hchain.tail ((hself new).mpr rfl)
    · rwa [instead_of_ne heq]
  · by_cases heq : d = old
    · subst heq
      obtain ⟨hplaced, hunplaced⟩ := hgone hd
      obtain hstays | hstays := hstays
      · rw [hplaced] at hstays
        cases hstays
      · have hstays : h.isPlaced d = true := hstays
        rw [hunplaced] at hstays
        cases hstays
    · exact hr.stays d r hd hstays ((hother d r heq).mp hd')
  · by_cases heq : d = old
    · subst heq
      rw [hfixed, instead_self]
      exact hmade hd
    · have hne := hr.moved d r hd ((hother d r heq).mp hd')
      unfold instead
      split
      · rintro rfl
        exact hne hfixed'
      · exact hne

/-! ## Both at once -/

/-- `h` is what has become of `g`: it has the outline of `g`, and what is read in the place of a definition is what its
pointers lead to. -/
structure Image (g h : FlowGraph) (ρ : InstId → InstId) (made : InstId → Option Merge) : Prop where
  outline : Outline g h made
  wired : Wired g h ρ made
  resolves : Resolves g h ρ made

/-- The phis that were made keep their places and are not brought to life. -/
def Undisturbed (g h h' : FlowGraph) : Prop :=
  Changes h h' fun j n n' => g.nodes.size ≤ j.index → n'.block = n.block ∧ n'.inst.isAlivePhi = n.inst.isAlivePhi

theorem Undisturbed.refl : Undisturbed g h h := ⟨rfl, fun _ n hn => ⟨n, hn, fun _ => ⟨rfl, rfl⟩⟩⟩

theorem Undisturbed.trans {h'' : FlowGraph} (hu : Undisturbed g h h') (hu' : Undisturbed g h' h'') :
    Undisturbed g h h'' :=
  Changes.trans hu hu' fun _ _ _ _ hsame hsame' hlt => by
    rw [(hsame' hlt).1, (hsame' hlt).2]
    exact hsame hlt

/-- Nothing has changed but numbers, classes and environments. -/
def Renumbered (h h' : FlowGraph) : Prop :=
  SameShape h h' ∧ Changes h h' fun _ n n' => n'.inst = n.inst ∧ n'.inputUses = n.inputUses ∧
    n'.replacement = n.replacement

theorem renumbered_refl : Renumbered h h :=
  ⟨⟨rfl, rfl, rfl, rfl, rfl, rfl, fun _ n hn => ⟨n, hn, rfl⟩⟩, rfl, fun _ n hn => ⟨n, hn, rfl, rfl, rfl⟩⟩

theorem renumbered_numbered : Renumbered h (h.numbered d) := by
  have hchange : Changes h (h.numbered d) fun _ n n' => n'.block = n.block ∧ n'.inst = n.inst ∧
      n'.inputUses = n.inputUses ∧ n'.replacement = n.replacement := by
    refine Changes.mapNodes (f := fun j n => if j = d then { n with ssaIndex := some h.nextSsaIndex } else n) rfl
      fun j n => ?_
    split <;> exact ⟨rfl, rfl, rfl, rfl⟩
  exact ⟨⟨rfl, rfl, rfl, rfl, rfl, hchange.mono fun _ _ _ hc => hc.1⟩, hchange.mono fun _ _ _ hc => hc.2⟩

theorem ensureSsaIndex_of_ok : Leads True h (Edit.ensureSsaIndex new old) fun _ h' => Renumbered h h' := by
  unfold Edit.ensureSsaIndex
  simp only [Leads.bind_iff, Leads.get_iff, Leads.lift_iff, Leads.ite_iff, Leads.discard_iff, Leads.allocSsaIndex_iff,
    Leads.pure_iff]
  exact Yields.of_ok fun n _ => ⟨fun _ => Yields.of_ok fun m _ => ⟨fun _ => ⟨fun _ => renumbered_numbered,
    fun _ => trivial⟩, fun _ => renumbered_refl⟩, fun _ => renumbered_refl⟩

theorem Renumbered.trans {h'' : FlowGraph} (hn : Renumbered h h') (hn' : Renumbered h' h'') : Renumbered h h'' := by
  obtain ⟨hs, hc⟩ := hn
  obtain ⟨hs', hc'⟩ := hn'
  refine ⟨hs.trans hs', hc.trans hc' ?_⟩
  rintro _ _ _ _ ⟨hinst, huses, hreplacement⟩ ⟨hinst', huses', hreplacement'⟩
  exact ⟨hinst'.trans hinst, huses'.trans huses, hreplacement'.trans hreplacement⟩

theorem renumbered_mapNodes {f : InstId → Node → Node} (hf : ∀ j n, (f j n).inst = n.inst ∧ (f j n).block = n.block ∧
    (f j n).inputUses = n.inputUses ∧ (f j n).replacement = n.replacement) : Renumbered h (h.mapNodes f) :=
  ⟨⟨rfl, rfl, rfl, rfl, rfl, .mapNodes rfl fun j n => (hf j n).2.1⟩, .mapNodes rfl fun j n =>
  ⟨(hf j n).1, (hf j n).2.2⟩⟩

theorem renumbered_withNode {f : Node → Node} (hf : ∀ n, (f n).inst = n.inst ∧ (f n).block = n.block ∧
    (f n).inputUses = n.inputUses ∧ (f n).replacement = n.replacement) : Renumbered h (h.withNode i f) := by
  refine renumbered_mapNodes fun j n => ?_
  split
  · exact hf n
  · exact ⟨rfl, rfl, rfl, rfl⟩

theorem addEnvUses_of_ok : Leads True h (Edit.addEnvUses i) fun _ h' => Renumbered h h' := by
  unfold Edit.addEnvUses
  rw [Leads.bind_iff, Leads.envValues_iff]
  refine ⟨fun n _ => Leads.forM_of_forall (Renumbered h) renumbered_refl fun u _ h₁ hn₁ => ?_, fun _ => trivial⟩
  exact Leads.modifyNode?_iff.mpr <| hn₁.trans (renumbered_withNode fun _ => ⟨rfl, rfl, rfl, rfl⟩)

theorem dropEnvUses_of_ok : Leads True h (Edit.dropEnvUses i) fun _ h' => Renumbered h h' := by
  unfold Edit.dropEnvUses
  rw [Leads.bind_iff, Leads.envValues_iff]
  refine ⟨fun n _ => Leads.forM_of_forall (Renumbered h) renumbered_refl fun u _ h₁ hn₁ => ?_, fun _ => trivial⟩
  exact Leads.modifyNode?_iff.mpr <| hn₁.trans (renumbered_withNode fun _ => ⟨rfl, rfl, rfl, rfl⟩)

theorem copyDeoptTarget_of_ok : Leads True h (Edit.copyDeoptTarget new old) fun _ h' => Renumbered h h' := by
  unfold Edit.copyDeoptTarget Edit.setEnv
  simp only [Leads.bind_iff, Leads.get_iff, Leads.lift_iff, Leads.modifyNode_iff]
  refine Yields.of_ok fun n _ => ⟨fun _ => dropEnvUses_of_ok.mono fun _ h₁ hn₁ => ⟨fun _ => Yields.of_ok fun m _ => ?_,
    fun _ => trivial⟩, fun _ => trivial⟩
  have hid : Renumbered h (h.withNode new fun m => { m with deoptId := n.deoptId }) :=
    renumbered_withNode fun _ => ⟨rfl, rfl, rfl, rfl⟩
  have hset : Renumbered h (h₁.withNode new fun m => { m with env := n.env }) :=
    (hid.trans hn₁).trans (renumbered_withNode fun _ => ⟨rfl, rfl, rfl, rfl⟩)
  split
  · exact addEnvUses_of_ok.mono fun _ _ hn₂ => hset.trans hn₂
  · exact hset

theorem Renumbered.undisturbed (hn : Renumbered h h') : Undisturbed g h h' := by
  refine ⟨hn.1.nodes.size, fun j n' hn' => ?_⟩
  obtain ⟨n, hj, hsame⟩ := hn.1.nodes.node j n' hn'
  obtain ⟨m, hm, hinst, -⟩ := hn.2.node j n' hn'
  obtain rfl := Option.some_inj.mp (hj.symm.trans hm)
  exact ⟨n, hj, fun _ => ⟨hsame, by rw [hinst]⟩⟩

namespace Image

theorem of_definite (hg : Definite g) : Image g g id fun _ => none :=
  ⟨.of_definite hg, .of_definite hg, .of_definite hg⟩

theorem lt_size (hg : Definite g) (hi : Image g h ρ made) (hd : Source g made d) : d.index < h.nodes.size := by
  obtain hd | hd := hd
  · exact Nat.lt_of_lt_of_le (hg.lt_size_of_evaluates hd) hi.outline.size
  · exact ((hi.outline.created d).mp hd).2

theorem same (hg : Definite g) (hi : Image g h ρ made) (hd : Evaluates g d)
    (hstays : g.isPlaced d = false ∨ h.isPlaced d = true) : ρ d = d := by
  obtain ⟨m, hm⟩ : ∃ m, h.nodes[d.index]? = some m := ⟨_, Array.getElem?_eq_getElem (hi.lt_size hg (.inl hd))⟩
  refine hi.resolves.ends d m (.inl hd) hm ?_
  cases hr : m.replacement with
  | none => rfl
  | some r => exact absurd ⟨m, hm, hr⟩ (hi.resolves.stays d r hd hstays)

theorem renumbered (hi : Image g h ρ made) (hn : Renumbered h h') : Image g h' ρ made where
  outline := hi.outline.congr hn.1
  wired := hi.wired.congr hn.1 (hn.2.mono fun _ _ _ hc => ⟨.of_eq hc.1, hc.2.1⟩)
  resolves := hi.resolves.congr (hn.2.mono fun _ _ _ hc => hc.2.2) fun j hj => by
    unfold FlowGraph.isPlaced at *
    rwa [hn.1.layout] at hj

theorem replaceUses (hi : Image g h ρ made) (hold : Traced g old) {m : Node} (hm : h.nodes[new.index]? = some m)
    (hblock : g.nodes.size ≤ new.index → m.block ≠ none) :
    Leads True h (Edit.replaceUses old new) fun _ h' => SameShape h h' ∧ Undisturbed g h h' ∧
      Wired g h' (fun d => instead old new (ρ d)) made ∧ Resolves g h' ρ made := by
  by_cases hne : old = new
  · subst hne
    simp only [Edit.replaceUses, if_true, instead_same]
    exact ⟨⟨rfl, rfl, rfl, rfl, rfl, rfl, fun _ n hn => ⟨n, hn, rfl⟩⟩, .refl,
      hi.wired, hi.resolves⟩
  refine Leads.replaceUses_of_ok.mono fun _ h' hh' => ?_
  obtain ⟨n, hn, rfl⟩ := hh'.resolve_left fun heq => hne heq.1
  have hchange := @changes_redirected h old new n.inputUses n.envUses
  exact ⟨sameShape_redirected, hchange.mono fun _ _ _ hc _ => ⟨hc.2.1, by rw [hc.1, Inst.isAlivePhi_mapArgs]⟩,
    hi.wired.redirected hold hn hne hm hblock, hi.resolves.congr (hchange.mono fun _ _ _ hc => hc.2.2.1) fun _ h => h⟩

theorem setReplacement (ho : Outline g h made) (hw : Wired g h (fun d => instead old new (ρ d)) made)
    (hr : Resolves g h ρ made) (hsource : Source g made new) (hfixed : ρ old = old) (hfixed' : ρ new = new)
    (hnone : ∀ r, ¬ Replaces h old r) (hgone : Evaluates g old → g.isPlaced old = true ∧ h.isPlaced old = false)
    (hmade : (made old).isSome = true → new ≠ old) :
    Leads True h (setReplacement old new) fun _ h' => SameShape h h' ∧ Undisturbed g h h' ∧
      Image g h' (fun d => instead old new (ρ d)) made := by
  refine setReplacement_of_ok.mono ?_
  rintro _ _ ⟨hlt, rfl⟩
  have hchange : Changes h (h.withNode old fun n => { n with replacement := some new }) fun _ n n' =>
      n'.block = n.block ∧ n'.inst = n.inst ∧ n'.inputUses = n.inputUses := by
    refine Changes.mapNodes (f := fun j n => if j = old then { n with replacement := some new } else n) rfl fun j n =>
      ?_
    split <;> exact ⟨rfl, rfl, rfl⟩
  have hs : SameShape h (h.withNode old fun n => { n with replacement := some new }) :=
    ⟨rfl, rfl, rfl, rfl, rfl, hchange.mono fun _ _ _ hc => hc.1⟩
  exact ⟨hs, hchange.mono fun _ _ _ hc _ => ⟨hc.1, by rw [hc.2.1]⟩, ho.congr hs,
    hw.congr hs (hchange.mono fun _ _ _ hc => ⟨.of_eq hc.2.1, hc.2.2⟩),
    hr.replace hsource hfixed hfixed' hlt hnone hgone hmade⟩

end Image

/-! ## Loads -/

/-- Replacing a load takes it out and lets another definition stand in for it. -/
theorem replaceLoad_image (hg : Definite g) (hi : Image g h ρ made) (hb : g.Reachable b) (hmem : i ∈ g.insts b)
    (hv : Source g made v) (hfixed : ρ v = v)
    (hblock : ∀ m, h.nodes[v.index]? = some m → g.nodes.size ≤ v.index → m.block ≠ none) :
    Threads True h p (replaceLoad i v) fun _ p' h' => p' = { p with changed := true } ∧ ρ i = i ∧ Undisturbed g h h' ∧
      Image g h' (fun d => instead i v (ρ d)) made ∧ ∀ j, h'.isPlaced j = (decide (j ≠ i) && h.isPlaced j) := by
  have heval : Evaluates g i := .inr (.inl ⟨b, hmem⟩)
  unfold replaceLoad
  simp only [Threads.bind_iff, Threads.lift_iff, Threads.modify_iff]
  refine ensureSsaIndex_of_ok.mono ?_
  intro _ h₁ hn₁
  have hi₁ := hi.renumbered hn₁
  have hs₁ := hn₁.1
  obtain ⟨m, hm⟩ : ∃ m, h.nodes[v.index]? = some m := ⟨_, Array.getElem?_eq_getElem (hi.lt_size hg hv)⟩
  obtain ⟨m₁, hm₁, hsame⟩ := hs₁.nodes.exists_node hm
  refine (hi₁.replaceUses (.inl ⟨b, hb, hmem⟩) hm₁ fun hlt => hsame ▸ hblock m hm hlt).mono ?_
  rintro _ h₂ ⟨hs₂, hu₂, hw₂, hr₂⟩
  have ho₂ := hi₁.outline.congr hs₂
  refine Leads.remove_of_ok.mono ?_
  rintro _ _ ⟨n, c, hn, hhome, rfl⟩
  obtain rfl : c = b := hg.block_unique (ho₂.mem_of_home hhome).1 hmem
  -- Until now the load had its place, so that nothing stood in for it.
  have hplaced : h₂.isPlaced i = true := Layout.isPlaced_iff.mpr ⟨c, hhome⟩
  have hnone (r : InstId) : ¬ Replaces h₂ i r := hr₂.stays i r heval (.inr hplaced)
  have hi_fixed : ρ i = i := by
    refine hr₂.ends i n (.inl heval) hn ?_
    cases hreplacement : n.replacement with
    | none => rfl
    | some r => exact absurd ⟨n, hn, hreplacement⟩ (hnone r)
  have hc₃ := @changes_removed h₂ c i n
  have hr₃ : Resolves g (h₂.removed i n c) ρ made :=
    hr₂.congr (hc₃.mono fun _ _ _ hc => hc.2.1) fun j hj => by
      rw [isPlaced_removed, Bool.and_eq_true] at hj
      exact hj.2
  have hnone₃ (r : InstId) : ¬ Replaces (h₂.removed i n c) i r := by
    rintro ⟨n', hn', hr⟩
    obtain ⟨l, hl, -, hsame, -⟩ := hc₃.node i n' hn'
    exact hnone r ⟨l, hl, hsame ▸ hr⟩
  refine (Image.setReplacement (ho₂.removed hg hhome hb) (hw₂.removed hg ho₂ hhome) hr₃ hv hi_fixed hfixed hnone₃
    (fun _ => ⟨hg.isPlaced_of_mem hmem, by simp [isPlaced_removed]⟩) fun hmade => ?_).mono ?_
  · exact absurd ((ho₂.created i).mp hmade).1 (Nat.not_le.mpr (hg.lt_size hmem))
  rintro _ h₄ ⟨hs₄, hu₄, hi₄⟩
  refine ⟨trivial, hi_fixed, ((hn₁.undisturbed.trans hu₂).trans ?_).trans hu₄, hi₄, fun j => ?_⟩
  · refine hc₃.mono fun j _ _ hc hlt => ⟨?_, by rw [hc.1]⟩
    rw [hc.2.2.1, if_neg]
    rintro rfl
    exact Nat.not_le.mpr (hg.lt_size hmem) hlt
  · have hlayout : h₄.isPlaced j = (h₂.removed i n c).isPlaced j := by
      unfold FlowGraph.isPlaced
      rw [hs₄.layout]
    rw [hlayout, isPlaced_removed]
    unfold FlowGraph.isPlaced
    rw [hs₂.layout, hs₁.layout]

end Midend.Loads

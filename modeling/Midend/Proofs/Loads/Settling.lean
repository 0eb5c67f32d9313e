import Mathlib.Algebra.Order.BigOperators.Group.List
import Midend.Proofs.Execution.Traces
import Midend.Proofs.Loads.Soundness

/-! # What is known when nothing changes any more

The rounds over the blocks come to an end, because every round but the last makes a place known at the end of some
block. Then the places known at the ends of blocks agree with what their predecessors know, and each of them has a value
that is at hand there.
-/

namespace Midend.Loads

open Midend.Flow FlowGraph Ssa Execution

variable {g h h' h₀ : FlowGraph} {ρ : InstId → InstId} {made : InstId → Option Merge} {b c : BlockId} {d i u v : InstId}
  {p p' p₀ : Progress} {n : Numbering} {k : Nat} {path : List BlockId} {a a' : Availability}

/-! ## Values at the ends of blocks -/

/-- The definition has its value at the end of `b`: it has been evaluated on every way there and is left, or it is a phi
that was made for a block on every way there. -/
def Supplied (g h : FlowGraph) (b : BlockId) (d : InstId) : Prop :=
  AtHand g b (g.insts b) d ∧ Remains g h d ∨ g.nodes.size ≤ d.index ∧ ∃ c, d ∈ phisOf h c ∧ g.Dominates c b

/-- What had a place in a block has one, and there may be more phis. -/
structure Extends (h h' : FlowGraph) : Prop where
  placed : ∀ d, h'.isPlaced d = h.isPlaced d
  phis : ∀ b, phisOf h b ⊆ phisOf h' b

theorem Extends.refl : Extends h h := ⟨fun _ => rfl, fun _ => List.Subset.refl _⟩

theorem Adds.extends {h₁ : FlowGraph} {values : List InstId} {count : Nat} (ha : Adds h h₁ b values count)
    (hn : Renumbered h₁ h') : Extends h h' ∧ h.nextId ∈ phisOf h' b := by
  have hphis (c : BlockId) : phisOf h' c = phisOf h₁ c := by
    unfold phisOf
    rw [hn.1.blocks]
  refine ⟨⟨fun d => ?_, fun c d hd => ?_⟩, ?_⟩
  · unfold FlowGraph.isPlaced
    rw [hn.1.layout, ha.layout]
  · rw [hphis, ha.mem_phisOf]
    exact .inl hd
  · rw [hphis, ha.mem_phisOf]
    exact .inr ⟨rfl, rfl⟩

theorem Supplied.mono (he : Extends h h') (hd : Supplied g h b d) : Supplied g h' b d := by
  obtain ⟨hathand, hremains⟩ | ⟨hsize, c, hphi, hdom⟩ := hd
  · exact .inl ⟨hathand, fun c hc => (he.placed d).trans (hremains c hc)⟩
  · exact .inr ⟨hsize, c, he.phis c hphi, hdom⟩

theorem Supplied.cases_of_lt (hd : Supplied g h b d) (hlt : d.index < g.nodes.size) :
    AtHand g b (g.insts b) d ∧ Remains g h d :=
  hd.resolve_right fun hphi => Nat.not_lt.mpr hphi.1 hlt

theorem Image.phi_unique (hi : Image g h ρ made) (hsize : g.nodes.size ≤ d.index) (hb : d ∈ phisOf h b)
    (hc : d ∈ phisOf h c) : b = c := by
  have hlt := hi.outline.phisIn b d hb
  obtain ⟨m, hm⟩ := Option.isSome_iff_exists.mp ((hi.outline.created d).mpr ⟨hsize, hlt⟩)
  obtain ⟨-, hphis⟩ := hi.outline.newPhis d m _ hm (Array.getElem?_eq_getElem hlt)
  exact Option.some_inj.mp (((hphis b).mp hb).symm.trans ((hphis c).mp hc))

section

variable (hg : Definite g)

include hg

theorem exists_pred_of_isPath (hne : predsOf g b ≠ []) (hpath : g.IsPath path) (hhead : path.headD graphEntry = b) :
    ∃ path', path = b :: path' ∧ g.IsPath path' ∧ path'.headD graphEntry ∈ predsOf g b := by
  cases hpath with
  | nil =>
    rw [← hhead] at hne
    exact absurd hg.preds_graphEntry hne
  | @cons path b' hedge hpath =>
    obtain rfl : b' = b := hhead
    obtain ⟨ps, hps, hmem, -⟩ := hg.reads.edges path b' hpath hedge
    obtain ⟨k, hk, rfl⟩ := preds_eq_ok.mp hps
    exact ⟨path, rfl, hpath, by simpa [predsOf, hk] using hmem⟩

theorem Supplied.cases_of_ge (hb : g.Reachable b) (hd : Supplied g h b d) (hsize : g.nodes.size ≤ d.index) :
    ∃ c, d ∈ phisOf h c ∧ g.Dominates c b := by
  obtain ⟨hathand, -⟩ | ⟨-, hphi⟩ := hd
  · exact absurd (hg.lt_size_of_evaluates (hathand.evaluates hb)) (Nat.not_lt.mpr hsize)
  · exact hphi

theorem Supplied.of_preds (hi : Image g h ρ made) (hb : g.Reachable b) (hne : predsOf g b ≠ [])
    (hall : ∀ c ∈ predsOf g b, Supplied g h c d) : Supplied g h b d := by
  have hreach (c : BlockId) (hc : c ∈ predsOf g b) : g.Reachable c := (hg.edge_of_mem_preds hb hc).1
  obtain ⟨c₀, hc₀⟩ := List.exists_mem_of_ne_nil _ hne
  by_cases hlt : d.index < g.nodes.size
  · refine .inl ⟨fun path hpath hhead => ?_, ((hall c₀ hc₀).cases_of_lt hlt).2⟩
    obtain ⟨path', rfl, hpath', hc⟩ := exists_pred_of_isPath hg hne hpath hhead
    refine (((hall _ hc).cases_of_lt hlt).1 path' hpath' rfl).imp_right fun hmem => ?_
    exact List.mem_append_left _ (List.mem_append_left _ hmem)
  · have hsize := Nat.not_lt.mp hlt
    obtain ⟨a, ha, -⟩ := (hall c₀ hc₀).cases_of_ge hg (hreach c₀ hc₀) hsize
    refine .inr ⟨hsize, a, ha, fun path hpath hhead => ?_⟩
    obtain ⟨path', rfl, hpath', hc⟩ := exists_pred_of_isPath hg hne hpath hhead
    obtain ⟨a', ha', hdom⟩ := (hall _ hc).cases_of_ge hg (hreach _ hc) hsize
    -- Whichever way control comes, it has come by the block of the same phi.
    obtain rfl := hi.phi_unique hsize ha ha'
    exact List.mem_cons_of_mem b (hdom path' hpath' rfl)

theorem Supplied.resolve_eq (hi : Image g h ρ made) (hv : Source g made v) (hd : Supplied g h b (ρ v)) :
    resolve h v = .ok (ρ v) := by
  refine hi.resolve_eq hg hv fun r heval => hi.resolves.stays (ρ v) r heval ?_
  exact (hd.cases_of_lt (hg.lt_size_of_evaluates heval)).2.cases hg

theorem exists_block (hb : g.Reachable b) : ∃ k, g.blocks[b.index]? = some k := by
  obtain ⟨ps, hps, -⟩ := (hg.block_holds hb).phis
  obtain ⟨all, hall, -⟩ := livePhis_eq_ok.mp hps
  obtain ⟨k, hk, -⟩ := phis_eq_ok.mp hall
  exact ⟨k, hk⟩

theorem Image.preds_ok (hi : Image g h ρ made) (hb : g.Reachable b) :
    b.index < h.blocks.size ∧ h.preds b = .ok (predsOf g b) := by
  obtain ⟨k, hk⟩ := exists_block hg hb
  have hsame := hi.outline.preds b
  rw [hk, Option.map_some] at hsame
  obtain ⟨k', hk', -⟩ := Option.map_eq_some_iff.mp hsame
  have hps : h.preds b = .ok k'.preds := preds_eq_ok.mpr ⟨k', hk', rfl⟩
  exact ⟨(Array.getElem?_eq_some_iff.mp hk').1, preds_eq hi hps ▸ hps⟩

end

/-! ## Filling values in -/

theorem predValues_ok {ps : List BlockId}
    (hvalues : ∀ c ∈ ps, ∃ u, valueAt p c k = some u ∧ resolve h u = .ok (ρ u)) :
    ∃ vs, predValues h p k ps = .ok (some vs) := by
  induction ps with
  | nil => exact ⟨[], rfl⟩
  | cons c ps ih =>
    obtain ⟨u, hu, hresolve⟩ := hvalues c List.mem_cons_self
    obtain ⟨vs, hvs⟩ := ih fun c hc => hvalues c (List.mem_cons_of_mem _ hc)
    have hu : (available? p c).bind (·.value? k) = some u := hu
    refine ⟨ρ u :: vs, ?_⟩
    unfold predValues
    simp only [hu, hresolve, hvs, bind, Except.bind, pure, Except.pure, Option.map_some]

/-- What is known is right, and all values that are recorded at the ends of blocks are at hand there. -/
structure Supplying (g : FlowGraph) (n : Numbering) (ρ : InstId → InstId) (p : Progress) (h : FlowGraph) : Prop where
  carried : ∃ made, Carried g n ρ made p h
  supplied : ∀ b a, available? p b = some a → ∀ k v, a.value? k = some v → Supplied g h b (ρ v)

/-- No block has more predecessors than a phi can have inputs. A list of predecessors takes as many bytes for each as a
list of inputs does, so that the same limit holds for it. -/
def Narrow (g : FlowGraph) : Prop := ∀ b, g.Reachable b → (predsOf g b).length < Edit.inputLimit

section

variable (hg : Definite g) (hnarrow : Narrow g)

include hg hnarrow

theorem Carried.mergeIncoming_supplied (hc : Carried g n ρ made p h) (hb : g.Reachable b) (hne : predsOf g b ≠ [])
    (hvalues : ∀ c ∈ predsOf g b, ∃ u, valueAt p c k = some u ∧ Supplied g h c (ρ u)) :
    Threads False h p (Loads.mergeIncoming b k) fun r p' h' => p'.blocks = p.blocks ∧ Extends h h' ∧
      ∃ v, r = some v ∧ Supplied g h' b (ρ v) := by
  have hi := hc.image
  obtain ⟨hsize, hpreds⟩ := hi.preds_ok hg hb
  have hsource (c : BlockId) (u : InstId) (hu : valueAt p c k = some u) : Source g made u := by
    obtain ⟨a, ha, hv⟩ := Option.bind_eq_some_iff.mp hu
    exact ((hc.table.scanned c a ha).values k u hv).1
  obtain ⟨vs, hok⟩ : ∃ vs, predValues h p k (predsOf g b) = .ok (some vs) := predValues_ok (ρ := ρ) fun c hmem => by
    obtain ⟨u, hu, hsupplied⟩ := hvalues c hmem
    exact ⟨u, hu, hsupplied.resolve_eq hg hi (hsource c u hu)⟩
  have hvs := predValues_of_ok hi hc.table hok
  unfold Loads.mergeIncoming
  simp only [Threads.bind_iff, Threads.getThe_iff, Threads.get_iff, Threads.read_iff, hpreds, hok, Yields.ok_iff]
  obtain _ | ⟨v, vs⟩ := vs
  · exact absurd (List.forall₂_nil_right_iff.mp hvs) hne
  simp only
  rw [Threads.ite_iff]
  refine ⟨fun hall => ?_, fun _ => ?_⟩
  · refine ⟨rfl, .refl, v, rfl, Supplied.of_preds hg hi hb hne fun c hmem => ?_⟩
    obtain ⟨w, hw, u, hu, -, rfl⟩ := forall₂_mem_left hvs hmem
    obtain ⟨u', hu', hsupplied⟩ := hvalues c hmem
    obtain rfl := Option.some_inj.mp (hu.symm.trans hu')
    have hsame : ρ u = v := by
      obtain heq | hw := List.mem_cons.mp hw
      · exact heq
      · simpa using List.all_eq_true.mp hall (ρ u) hw
    rwa [← hsame, hi.resolves.idem]
  · rw [Threads.bind_iff]
    -- The values are there before the phi is, so that none of them is the phi.
    refine (mergePhi_adds (fun _ => ⟨hsize, hvs.length_eq ▸ hnarrow b hb⟩) ?_).mono ?_
    · rintro _ hw rfl
      obtain ⟨c, -, u, -, hu, heq⟩ := forall₂_mem_right hvs hw
      exact Nat.lt_irrefl _ (heq ▸ hi.lt_size hg (hi.resolves.source hu))
    rintro _ _ h' ⟨rfl, rfl, h₁, ha, hn⟩
    obtain ⟨hextends, hphi⟩ := ha.extends hn
    refine ⟨rfl, hextends, h.nextId, rfl, .inr ?_⟩
    rw [hi.resolves.fresh h.nextId (Nat.le_refl _)]
    exact ⟨hi.outline.size, b, hphi, .refl b⟩

theorem Supplying.fillValue (hs : Supplying g n ρ p h) (ha : available? p b = some a) (hk : k ∈ a.incoming)
    (hnone : a.value? k = none) (hvalues : ∀ c ∈ predsOf g b, ∃ u, valueAt p c k = some u) :
    Threads False h p (Loads.fillValue b k) fun _ p' h' => Supplying g n ρ p' h' ∧
      ∃ v, ∀ c, available? p' c = if c = b then some { a with values := (k, v) :: a.values } else available? p c := by
  obtain ⟨made, hc⟩ := hs.carried
  have hmerges := hc.mergeIncoming_supplied (k := k) hg hnarrow (hc.table.reachable b a ha)
    (hc.table.incoming b a ha k hk).1 fun c hmem => by
      obtain ⟨u, hu⟩ := hvalues c hmem
      obtain ⟨e, he, hv⟩ := Option.bind_eq_some_iff.mp hu
      exact ⟨u, hu, hs.supplied c e he k u hv⟩
  have hfills : Threads False h p (Loads.fillValue b k) fun _ p' h' => ∃ v, Extends h h' ∧ Supplied g h' b (ρ v) ∧
      ∀ c, available? p' c = if c = b then some { a with values := (k, v) :: a.values } else available? p c := by
    unfold Loads.fillValue
    rw [Threads.bind_iff]
    refine hmerges.mono ?_
    rintro _ p₁ h₁ ⟨hblocks, hextends, v, rfl, hv⟩
    have hsame (c : BlockId) : available? p₁ c = available? p c := by
      unfold available?
      rw [hblocks]
    simp only [Threads.bind_iff, Threads.get_iff, hsame, ha, setAvailable, Threads.modify_iff]
    exact ⟨v, hextends, hv, fun c => by rw [available?_insert, hsame]⟩
  refine (hfills.and_of_ok (hc.fillValue hg ha hk hnone)).mono ?_
  rintro _ p' h' ⟨⟨v, hextends, hv, hafter⟩, made', -, hc', -⟩
  refine ⟨⟨⟨made', hc'⟩, fun c e he j w hw => ?_⟩, v, hafter⟩
  rw [hafter] at he
  split at he
  case isTrue heq =>
    subst heq
    obtain rfl := Option.some_inj.mp he
    rw [Availability.value?, List.lookup_cons] at hw
    split at hw
    · exact Option.some_inj.mp hw ▸ hv
    · exact (hs.supplied c a ha j w hw).mono hextends
  case isFalse => exact (hs.supplied c e he j w hw).mono hextends

theorem Supplying.fillAll {missing : List Nat} (hs : Supplying g n ρ p h) (ha : available? p b = some a)
    (hnodup : missing.Nodup) (hmissing : ∀ k ∈ missing, k ∈ a.incoming ∧ a.value? k = none)
    (hvalues : ∀ k ∈ missing, ∀ c ∈ predsOf g b, c ≠ b ∧ ∃ u, valueAt p c k = some u) :
    Threads False h p (missing.forM (Loads.fillValue b)) fun _ p' h' => Supplying g n ρ p' h' ∧
      ∃ values, (∀ c, available? p' c = if c = b then some { a with values } else available? p c) ∧
        ∀ k, values.lookup k = none ↔ a.value? k = none ∧ k ∉ missing := by
  refine Threads.forM (fun done p' h' => Supplying g n ρ p' h' ∧
    ∃ values, (∀ c, available? p' c = if c = b then some { a with values } else available? p c) ∧
      ∀ k, values.lookup k = none ↔ a.value? k = none ∧ k ∉ done) ⟨hs, a.values, fun c => ?_, fun k => ?_⟩ ?_
  · split
    case isTrue heq => rw [heq, ha]
    case isFalse => rfl
  · simp [Availability.value?]
  rintro done k rest p₁ h₁ rfl ⟨hs₁, values, hafter, hlookup⟩
  have hk : k ∈ done ++ k :: rest := by simp
  have hnot : k ∉ done := fun hmem => (List.nodup_append.mp hnodup).2.2 k hmem k List.mem_cons_self rfl
  obtain ⟨hin, hnone⟩ := hmissing k hk
  have ha₁ : available? p₁ b = some { a with values } := by rw [hafter, if_pos rfl]
  have hvalues₁ (c : BlockId) (hc : c ∈ predsOf g b) : ∃ u, valueAt p₁ c k = some u := by
    obtain ⟨hne, u, hu⟩ := hvalues k hk c hc
    refine ⟨u, ?_⟩
    unfold valueAt
    rwa [hafter, if_neg hne]
  refine (hs₁.fillValue hg hnarrow ha₁ hin ((hlookup k).mpr ⟨hnone, hnot⟩) hvalues₁).mono ?_
  rintro _ p₂ h₂ ⟨hs₂, v, hafter₂⟩
  refine ⟨hs₂, (k, v) :: values, fun c => ?_, fun j => ?_⟩
  · rw [hafter₂, hafter]
    split <;> rfl
  · rw [List.lookup_cons, List.mem_append, List.mem_singleton]
    by_cases hj : j = k
    · simp [hj]
    · simp [beq_false_of_ne hj, hlookup, hj]

end

/-! ## One block -/

/-- What is known at the ends of blocks follows from what is known on entry, and has values. -/
structure Complete (n : Numbering) (p : Progress) : Prop where
  outgoing : ∀ b a, available? p b = some a → a.outgoing = a.outgoingFrom n.size a.incoming
  valued : ∀ b a, available? p b = some a → ∀ k ∈ a.outgoing, a.value? k ≠ none

/-- The block `b` has learned what its predecessors know, and whether more is known at its end. -/
structure BlockLearns (g : FlowGraph) (b : BlockId) (p p' : Progress) (changed : Bool) (a a' : Availability) :
    Prop where
  before : available? p b = some a
  after : ∀ c, available? p' c = if c = b then some a' else available? p c
  same : a'.generated = a.generated ∧ a'.killed = a.killed
  incoming : a'.incoming = incomingFrom p (predsOf g b)
  still : changed = false → a'.outgoing = a.outgoing
  grown : changed = true → a.outgoing.length < a'.outgoing.length

theorem Complete.learns {changed : Bool} (hcomplete : Complete n p) (hlearns : BlockLearns g b p p' changed a a')
    (houtgoing : a'.outgoing = a'.outgoingFrom n.size a'.incoming) (hvalued : ∀ k ∈ a'.outgoing, a'.value? k ≠ none) :
    Complete n p' := by
  constructor <;> intro c e he <;> rw [hlearns.after] at he <;> split at he
  · exact Option.some_inj.mp he ▸ houtgoing
  · exact hcomplete.outgoing c e he
  · exact Option.some_inj.mp he ▸ hvalued
  · exact hcomplete.valued c e he

theorem length_outgoingFrom_lt {size : Nat} {incoming incoming' : List Nat} (hsub : incoming ⊆ incoming')
    (hne : a.outgoingFrom size incoming' ≠ a.outgoingFrom size incoming) :
    (a.outgoingFrom size incoming).length < (a.outgoingFrom size incoming').length := by
  have hsublist : (a.outgoingFrom size incoming).Sublist (a.outgoingFrom size incoming') := by
    refine List.monotone_filter_right _ fun k hk => ?_
    simp only [Bool.or_eq_true, Bool.and_eq_true, decide_eq_true_eq] at hk ⊢
    exact hk.imp_right (And.imp_left fun hmem => hsub hmem)
  refine lt_of_le_of_ne hsublist.length_le fun hlength => hne ?_
  exact (hsublist.eq_of_length hlength).symm

namespace BlockLearns

theorem refl (ha : available? p b = some a) (hsame : incomingFrom p (predsOf g b) = a.incoming) :
    BlockLearns g b p p false a a where
  before := ha
  after c := by
    split
    case isTrue heq => rw [heq, ha]
    case isFalse => rfl
  same := ⟨rfl, rfl⟩
  incoming := hsame.symm
  still _ := rfl
  grown h := absurd h Bool.false_ne_true

theorem enter (ha : available? p b = some a)
    (hsame : a.outgoingFrom n.size (incomingFrom p (predsOf g b)) = a.outgoing) :
    BlockLearns g b p { p with blocks := p.blocks.insert b.index (a.entered n.size (incomingFrom p (predsOf g b))) }
      false a (a.entered n.size (incomingFrom p (predsOf g b))) where
  before := ha
  after _ := available?_insert
  same := ⟨rfl, rfl⟩
  incoming := rfl
  still _ := hsame
  grown h := absurd h Bool.false_ne_true

theorem fill {values : List (Nat × InstId)} (ha : available? p b = some a)
    (houtgoing : a.outgoing = a.outgoingFrom n.size a.incoming) (hincoming : a.incoming ⊆ incomingFrom p (predsOf g b))
    (hne : a.outgoingFrom n.size (incomingFrom p (predsOf g b)) ≠ a.outgoing)
    (hafter : ∀ c, available? p' c = if c = b then
      some { a.entered n.size (incomingFrom p (predsOf g b)) with values } else available? p c) :
    BlockLearns g b p p' true a { a.entered n.size (incomingFrom p (predsOf g b)) with values } where
  before := ha
  after := hafter
  same := ⟨rfl, rfl⟩
  incoming := rfl
  still h := absurd h.symm Bool.false_ne_true
  grown _ := by
    rw [houtgoing] at hne ⊢
    exact length_outgoingFrom_lt hincoming hne

end BlockLearns

section

variable (hg : Definite g)

include hg

/-- A place that has just come in has a value at the ends of all predecessors. The block is none of them, since it would
have had a value itself. -/
theorem Complete.valueAt_of_missing (hcomplete : Complete n p) (hc : Carried g n ρ made p h)
    (ha : available? p b = some a) (hin : k ∈ incomingFrom p (predsOf g b)) (hnone : a.value? k = none)
    (hmem : c ∈ predsOf g b) : c ≠ b ∧ ∃ u, valueAt p c k = some u := by
  obtain ⟨e, he, hknown⟩ := ((hc.mem_incoming hg (hc.table.reachable b a ha)).mp hin).2 c hmem
  have hvalue := hcomplete.valued c e he k hknown
  refine ⟨?_, ?_⟩
  · rintro rfl
    obtain rfl := Option.some_inj.mp (ha.symm.trans he)
    exact hvalue hnone
  · unfold valueAt
    rw [he]
    exact Option.ne_none_iff_exists'.mp hvalue

theorem Supplying.enter (hs : Supplying g n ρ p h) (ha : available? p b = some a) :
    Supplying g n ρ { p with blocks := p.blocks.insert b.index (a.entered n.size (incomingFrom p (predsOf g b))) }
      h := by
  obtain ⟨made, hc⟩ := hs.carried
  refine ⟨⟨made, (hc.enter hg ha).2.2⟩, fun c e he k v hv => ?_⟩
  rw [available?_insert] at he
  split at he
  case isTrue heq =>
    subst heq
    obtain rfl := Option.some_inj.mp he
    exact hs.supplied c a ha k v hv
  case isFalse => exact hs.supplied c e he k v hv

theorem Supplying.carryInto (hnarrow : Narrow g) (hs : Supplying g n ρ p h) (hcomplete : Complete n p)
    (ha : available? p b = some a) :
    Threads False h p (Loads.carryInto n b) fun changed p' h' => Supplying g n ρ p' h' ∧ Complete n p' ∧
      ∃ a', BlockLearns g b p p' changed a a' := by
  obtain ⟨made, hc⟩ := hs.carried
  obtain ⟨-, hpreds⟩ := hc.image.preds_ok hg (hc.table.reachable b a ha)
  unfold Loads.carryInto
  simp only [Threads.bind_iff, Threads.get_iff, Threads.getThe_iff, Threads.read_iff, hpreds, Yields.ok_iff, ha]
  rw [Threads.ite_iff]
  refine ⟨fun hsame => ⟨hs, hcomplete, a, .refl ha hsame⟩, fun _ => ?_⟩
  simp only [setAvailable, Threads.bind_iff, Threads.modify_iff]
  rw [Threads.ite_iff]
  refine ⟨fun hsame => ?_, fun hne => ?_⟩
  · have hlearns := BlockLearns.enter ha hsame
    refine ⟨hs.enter hg ha, hcomplete.learns hlearns rfl fun k hk => ?_, _, hlearns⟩
    exact hcomplete.valued b a ha k (hsame ▸ hk)
  obtain ⟨hincoming, -, hc₁⟩ := hc.enter hg ha
  have ha₁ : available? { p with blocks := p.blocks.insert b.index (a.entered n.size (incomingFrom p (predsOf g b))) }
      b = some (a.entered n.size (incomingFrom p (predsOf g b))) := by rw [available?_insert, if_pos rfl]
  have hmissing (k : Nat) (hk : k ∈ (a.outgoingFrom n.size (incomingFrom p (predsOf g b))).filter
      fun k => (a.value? k).isNone) : k ∈ incomingFrom p (predsOf g b) ∧ a.value? k = none := by
    obtain ⟨hout, hnone⟩ := List.mem_filter.mp hk
    have hnone : a.value? k = none := by simpa using hnone
    exact ⟨hc₁.table.incoming_of_missing ha₁ hout hnone, hnone⟩
  rw [Threads.bind_iff]
  refine ((hs.enter hg ha).fillAll hg hnarrow ha₁ ((List.nodup_range.filter _).filter _) hmissing
    fun k hk c hmem => ?_).mono ?_
  · obtain ⟨hin, hnone⟩ := hmissing k hk
    obtain ⟨hother, hvalue⟩ := hcomplete.valueAt_of_missing hg hc ha hin hnone hmem
    refine ⟨hother, ?_⟩
    unfold valueAt at hvalue ⊢
    rwa [available?_insert, if_neg hother]
  rintro _ p' h' ⟨hs', values, hafter, hlookup⟩
  have hlearns : BlockLearns g b p p' true a { a.entered n.size (incomingFrom p (predsOf g b)) with values } := by
    refine .fill ha (hcomplete.outgoing b a ha) hincoming hne fun c => ?_
    rw [hafter, available?_insert]
    split <;> rfl
  refine ⟨hs', hcomplete.learns hlearns rfl fun k hk hnone => ?_, _, hlearns⟩
  obtain ⟨hold, hnot⟩ := (hlookup k).mp hnone
  exact hnot (List.mem_filter.mpr ⟨hk, by rw [show a.value? k = none from hold]; rfl⟩)

end

/-! ## Rounds -/

theorem Supplying.start (hg : Definite g) (hw : Walked g n g.reversePostorder [] ρ p h) (hown : Own g n p) :
    Supplying g n ρ p h ∧ Complete n p := by
  refine ⟨⟨⟨_, .start hg hw⟩, fun b a ha k v hv => ?_⟩, fun b a ha => ?_, fun b a ha k hk => ?_⟩
  · have hb := hg.reachable_of_mem_order (hw.table b a ha).1
    have hathand := (hown b a ha).2 k v hv
    exact .inl ⟨hathand.standIn hg hw.image hw.gone (List.append_nil _).symm,
      hathand.remains hg hw.image hw.gone hb (List.append_nil _).symm⟩
  · rw [(hw.table b a ha).2.1]
    exact (hown b a ha).1
  · obtain ⟨-, -, hgenerated, hscanned⟩ := hw.table b a ha
    obtain ⟨v, hv, -⟩ := hscanned.generated k (hgenerated k hk)
    rw [hv]
    exact Option.some_ne_none v

/-- What is known at the end of a block that has been visited. -/
def outgoing? (p : Progress) (b : BlockId) : Option (List Nat) := (available? p b).map (·.outgoing)

def weight (order : List BlockId) (p : Progress) : Nat := (order.map fun b => ((outgoing? p b).getD []).length).sum

theorem incomingFrom_congr {ps : List BlockId} (hsame : ∀ b, outgoing? p' b = outgoing? p b) :
    incomingFrom p' ps = incomingFrom p ps :=
  congrArg common (List.filterMap_congr fun b _ => hsame b)

theorem Complete.weight_le (hcomplete : Complete n p) (order : List BlockId) :
    weight order p ≤ order.length * n.size := by
  have hle : ∀ x ∈ order.map fun b => ((outgoing? p b).getD []).length, x ≤ n.size := by
    intro x hx
    obtain ⟨b, -, rfl⟩ := List.mem_map.mp hx
    unfold outgoing?
    cases ha : available? p b with
    | none => simp
    | some a =>
      rw [Option.map_some, Option.getD_some, hcomplete.outgoing b a ha]
      exact (List.length_filter_le _ _).trans_eq List.length_range
  refine (List.sum_le_card_nsmul _ _ hle).trans_eq ?_
  rw [List.length_map]
  rfl

def SameEffects (p p' : Progress) : Prop :=
  ∀ b, (available? p' b).map (fun a => (a.generated, a.killed)) = (available? p b).map fun a => (a.generated, a.killed)

namespace BlockLearns

variable {changed : Bool} (hlearns : BlockLearns g b p p' changed a a')

include hlearns

theorem sameEffects : SameEffects p p' := by
  intro c
  rw [hlearns.after]
  split
  case isTrue heq => rw [heq, hlearns.before, Option.map_some, Option.map_some, hlearns.same.1, hlearns.same.2]
  case isFalse => rfl

theorem outgoing?_eq (c : BlockId) : outgoing? p' c = if c = b then some a'.outgoing else outgoing? p c := by
  unfold outgoing?
  rw [hlearns.after]
  split <;> rfl

theorem still? (hstill : changed = false) (c : BlockId) : outgoing? p' c = outgoing? p c := by
  rw [hlearns.outgoing?_eq]
  split
  case isTrue heq =>
    rw [heq, hlearns.still hstill]
    simp [outgoing?, hlearns.before]
  case isFalse => rfl

theorem weight_lt {order : List BlockId} (hb : b ∈ order) (hgrown : changed = true) :
    weight order p < weight order p' := by
  have hlt := hlearns.grown hgrown
  refine List.sum_lt_sum _ _ (fun c _ => ?_) ⟨b, hb, ?_⟩
  · rw [hlearns.outgoing?_eq]
    split
    case isTrue heq =>
      rw [heq]
      simpa [outgoing?, hlearns.before] using hlt.le
    case isFalse => exact Nat.le_refl _
  · rw [hlearns.outgoing?_eq, if_pos rfl]
    simpa [outgoing?, hlearns.before] using hlt

end BlockLearns

/-- What a round that has come behind the blocks `done` has brought about. -/
structure Round (g : FlowGraph) (order done : List BlockId) (p p' : Progress) (changed : Bool) : Prop where
  same : SameEffects p p'
  grown : changed = true → weight order p < weight order p'
  still : changed = false → ∀ b, outgoing? p' b = outgoing? p b
  incoming : changed = false → ∀ b ∈ done, ∃ a, available? p' b = some a ∧ a.incoming = incomingFrom p (predsOf g b)

namespace Round

variable {order done : List BlockId} {p'' : Progress} {changed changed' : Bool}

theorem start : Round g order [] p p false :=
  ⟨fun _ => rfl, nofun, fun _ _ => rfl, fun _ _ hb => nomatch hb⟩

theorem weight_le (hround : Round g order done p p' changed) : weight order p ≤ weight order p' := by
  cases changed with
  | true => exact (hround.grown rfl).le
  | false =>
    unfold weight
    simp only [hround.still rfl, Nat.le_refl]

theorem step (hround : Round g order done p p' changed) (hlearns : BlockLearns g b p' p'' changed' a a')
    (hb : b ∈ order) : Round g order (done ++ [b]) p p'' (changed' || changed) where
  same c := (hlearns.sameEffects c).trans (hround.same c)
  grown hchanged := by
    cases changed' with
    | true => exact hround.weight_le.trans_lt (hlearns.weight_lt hb rfl)
    | false =>
      refine (hround.grown hchanged).trans_le (Nat.le_of_eq ?_)
      unfold weight
      simp only [hlearns.still? rfl]
  still hstill c := by
    obtain ⟨hstill', hstill⟩ := Bool.or_eq_false_iff.mp hstill
    exact (hlearns.still? hstill' c).trans (hround.still hstill c)
  incoming hstill c hc := by
    obtain ⟨-, hstill⟩ := Bool.or_eq_false_iff.mp hstill
    rw [hlearns.after]
    split
    case isTrue heq =>
      -- The round had changed nothing before it came to this block.
      subst heq
      exact ⟨a', rfl, hlearns.incoming.trans (incomingFrom_congr (hround.still hstill))⟩
    case isFalse hne =>
      have hdone := (List.mem_append.mp hc).resolve_right fun h => hne (List.mem_singleton.mp h)
      exact hround.incoming hstill c hdone

end Round

section

variable (hg : Definite g) (hnarrow : Narrow g)

include hg hnarrow

theorem Supplying.carryAll {order : List BlockId} (hs : Supplying g n ρ p h) (hcomplete : Complete n p)
    (horder : ∀ b ∈ order, g.Reachable b) :
    Threads False h p (Loads.carryAll n order) fun changed p' h' => Supplying g n ρ p' h' ∧ Complete n p' ∧
      Round g order order p p' changed := by
  unfold Loads.carryAll
  refine Threads.foldlM (fun done changed p' h' => Supplying g n ρ p' h' ∧ Complete n p' ∧
    Round g order done p p' changed) ⟨hs, hcomplete, .start⟩ ?_
  rintro done b rest changed p₁ h₁ hsplit ⟨hs₁, hcomplete₁, hround⟩
  have hb : b ∈ order := by simp [hsplit]
  obtain ⟨made, hc⟩ := hs₁.carried
  obtain ⟨a, ha⟩ := hc.table.visited b (horder b hb)
  rw [Threads.bind_iff]
  refine (hs₁.carryInto hg hnarrow hcomplete₁ ha).mono ?_
  rintro changed' p₂ h₂ ⟨hs₂, hcomplete₂, a', hlearns⟩
  exact ⟨hs₂, hcomplete₂, hround.step hlearns hb⟩

theorem Supplying.settle {order : List BlockId} {rounds : Nat} (hs : Supplying g n ρ p h) (hcomplete : Complete n p)
    (horder : ∀ b ∈ order, g.Reachable b) (hrounds : order.length * n.size < weight order p + rounds) :
    Threads False h p (Loads.settle n order rounds) fun _ p' h' => Supplying g n ρ p' h' ∧ Complete n p' ∧
      SameEffects p p' ∧ ∀ b ∈ order, ∃ a, available? p' b = some a ∧ a.incoming = incomingFrom p' (predsOf g b) := by
  induction rounds generalizing p h with
  | zero => exact absurd (hcomplete.weight_le order) (Nat.not_le.mpr hrounds)
  | succ rounds ih =>
    unfold Loads.settle
    rw [Threads.bind_iff]
    refine (hs.carryAll hg hnarrow hcomplete horder).mono ?_
    rintro changed p₁ h₁ ⟨hs₁, hcomplete₁, hround⟩
    rw [Threads.ite_iff]
    refine ⟨fun hchanged => ?_, fun hstill => ?_⟩
    · have hgrown := hround.grown hchanged
      refine (ih hs₁ hcomplete₁ (by omega)).mono ?_
      rintro _ p₂ h₂ ⟨hs₂, hcomplete₂, hsame, hincoming⟩
      exact ⟨hs₂, hcomplete₂, fun b => (hsame b).trans (hround.same b), hincoming⟩
    · have hstill : changed = false := by simpa using hstill
      refine ⟨hs₁, hcomplete₁, hround.same, fun b hb => ?_⟩
      rw [incomingFrom_congr (hround.still hstill)]
      exact hround.incoming hstill b hb

end

/-! ## The end -/

/-- Every path to the end of the block comes by the definition: it is there from the start, or its block dominates this
one. Phis that are not alive yet count if they are pending. -/
def AtEnd (p : Progress) (h : FlowGraph) (b : BlockId) (d : InstId) : Prop :=
  d ∈ h.initialDefinitions ∨
    ∃ c, (d ∈ h.insts c ∨ LivePhi h c d ∨ d ∈ p.pending ∧ d ∈ phisOf h c) ∧ h.Dominates c b

/-- Following replacements from `v` leads to a definition that dominates the end of the block. -/
def LeadsToEnd (p : Progress) (h : FlowGraph) (b : BlockId) (v : InstId) : Prop :=
  ∃ d, resolve h v = .ok d ∧ AtEnd p h b d

/-- What is known in a block agrees with what is known in its predecessors, and what is known at its end has a value. -/
structure Settled (p : Progress) (h : FlowGraph) (b : BlockId) (a : Availability) : Prop where
  incoming : ∀ k, k ∈ a.incoming ↔ predsOf h b ≠ [] ∧
    ∀ c ∈ predsOf h b, ∃ e, available? p c = some e ∧ k ∈ e.outgoing
  outgoing : ∀ k, k ∈ a.outgoing ↔ k ∈ a.generated ∨ k ∈ a.incoming ∧ k ∉ a.killed
  valued : ∀ k ∈ a.outgoing, ∃ v, a.value? k = some v
  values : ∀ k v, a.value? k = some v → LeadsToEnd p h b v

/-- The phi has an input for each predecessor of its block, and each is at hand at the end of that predecessor. -/
def PhiSettled (p : Progress) (h : FlowGraph) (b : BlockId) (phi : InstId) : Prop :=
  phi ∈ phisOf h b ∧ ∃ n, h.nodes[phi.index]? = some n ∧ n.inst.args.length = (predsOf h b).length ∧
    ∀ (j : Nat) c v, (predsOf h b)[j]? = some c → n.inst.args[j]? = some v → LeadsToEnd p h c v

namespace Carried

variable (hg : Definite g) (hc : Carried g n ρ made p h)

include hg hc

theorem isPath_iff : h.IsPath path ↔ g.IsPath path := by
  refine isPath_congr fun b hb => next_congr hc.image.outline.catchEntries ?_ fun i hi => ?_
  · refine hc.image.outline.lastInst_eq hg (fun b i m hi hm hterm => ?_) hb
    by_contra hgone
    obtain ⟨-, -, m', -, place, -, hm', hload, -⟩ := hc.gone b i hi (by simpa using hgone)
    obtain rfl := Option.some_inj.mp (hm.symm.trans hm')
    rw [not_isTerminator_of_loads hload] at hterm
    cases hterm
  · have hlt := hg.lt_size (List.mem_of_getLast? hi)
    obtain ⟨m', f, hm', hinst⟩ := hc.image.wired.shapes i _ (Array.getElem?_eq_getElem hlt)
    rw [hm', Array.getElem?_eq_getElem hlt, Option.map_some, Option.map_some, hinst, Inst.successors_mapArgs]

theorem dominates_iff : h.Dominates c b ↔ g.Dominates c b := by
  unfold FlowGraph.Dominates
  simp only [hc.isPath_iff hg]

theorem reachable_iff : h.Reachable b ↔ g.Reachable b := by
  constructor <;> intro hb <;> obtain ⟨path, hpath, rfl⟩ := exists_path_of_reachable hb
  · exact ((hc.isPath_iff hg).mp hpath).reachable
  · exact ((hc.isPath_iff hg).mpr hpath).reachable

omit hg in
theorem predsOf_eq : predsOf h b = predsOf g b := by
  unfold predsOf
  rw [hc.image.outline.preds]

theorem atEnd (hb : g.Reachable b) (hd : Supplied g h b d) : AtEnd p h b d := by
  obtain ⟨hathand, hremains⟩ | ⟨hsize, c, hphi, hdom⟩ := hd
  · refine or_iff_not_imp_left.mpr fun hinitial => ?_
    rw [hc.image.outline.initial] at hinitial
    obtain ⟨a, hd, hdom⟩ := hg.exists_home hb fun path hpath hhead => (hathand path hpath hhead).resolve_left hinitial
    refine ⟨a, ?_, (hc.dominates_iff hg).mpr hdom⟩
    obtain hd | hd := hd
    · rw [hc.image.outline.insts]
      exact .inl (List.mem_filter.mpr ⟨hd, hremains a hd⟩)
    · obtain ⟨-, -, hphi⟩ := live_iff.mp hd
      have hlt := hg.lt_size_of_evaluates (.inr (.inr ⟨a, hphi⟩))
      exact .inr (.inl ((hc.image.livePhi_iff_of_lt hlt).mpr hphi))
  · have hpending := (hc.waiting.pending d).mpr ⟨hsize, hc.image.outline.phisIn c d hphi⟩
    exact .inr ⟨c, .inr (.inr ⟨hpending, hphi⟩), (hc.dominates_iff hg).mpr hdom⟩

theorem leadsToEnd (hb : g.Reachable b) (hv : Source g made v) (hd : Supplied g h b (ρ v)) : LeadsToEnd p h b v :=
  ⟨ρ v, hd.resolve_eq hg hc.image hv, hc.atEnd hg hb hd⟩

end Carried

section

variable (hg : Definite g)

include hg

theorem Supplying.settled (hs : Supplying g n ρ p h) (hcomplete : Complete n p) (ha : available? p b = some a)
    (hin : a.incoming = incomingFrom p (predsOf g b)) : Settled p h b a := by
  obtain ⟨made, hc⟩ := hs.carried
  have hb := hc.table.reachable b a ha
  refine ⟨fun k => ?_, fun k => ?_, fun k hk => Option.ne_none_iff_exists'.mp (hcomplete.valued b a ha k hk),
    fun k v hv => hc.leadsToEnd hg hb ((hc.table.scanned b a ha).values k v hv).1 (hs.supplied b a ha k v hv)⟩
  · rw [hin, hc.predsOf_eq, hc.mem_incoming hg hb]
  · refine ⟨fun hk => (hc.table.outgoing b a ha k hk).2, fun hk => ?_⟩
    rw [hcomplete.outgoing b a ha, mem_outgoingFrom]
    refine ⟨?_, hk⟩
    obtain hgenerated | ⟨hk, -⟩ := hk
    · obtain ⟨-, -, _, _, _, -, ⟨_, _, -, hplace, -⟩, -⟩ := (hc.table.scanned b a ha).generated k hgenerated
      exact (List.getElem?_eq_some_iff.mp hplace).1
    · obtain ⟨hne, hall⟩ := hc.table.incoming b a ha k hk
      obtain ⟨c, hmem⟩ := List.exists_mem_of_ne_nil _ hne
      obtain ⟨e, he, hout⟩ := hall c hmem
      exact (hc.table.outgoing c e he k hout).1

theorem Supplying.phiSettled (hs : Supplying g n ρ p h) (hphi : d ∈ p.pending) :
    ∃ b, g.Reachable b ∧ PhiSettled p h b d := by
  obtain ⟨made, hc⟩ := hs.carried
  obtain ⟨hsize, hlt⟩ := (hc.waiting.pending d).mp hphi
  obtain ⟨m, hm⟩ := Option.isSome_iff_exists.mp ((hc.image.outline.created d).mpr ⟨hsize, hlt⟩)
  obtain ⟨o, ho⟩ : ∃ o, h.nodes[d.index]? = some o := ⟨_, Array.getElem?_eq_getElem hlt⟩
  obtain ⟨hblock, -⟩ := hc.waiting.dead d o hsize ho
  obtain ⟨hwhere, hphis⟩ := hc.image.outline.newPhis d m o hm ho
  have hrecorded := hc.table.merges d m hm
  have hargs : o.inst.args = m.values.map ρ :=
    hc.image.wired.merged d m o hm (.inr (.inr ⟨hsize, o, ho, hblock⟩)) ho
  refine ⟨m.block, hrecorded.reachable, (hphis m.block).mpr (hwhere.resolve_right hblock), o, ho, ?_, fun j c v hj hv =>
    ?_⟩
  · rw [hargs, List.length_map, hc.predsOf_eq, hrecorded.values.length_eq]
  · rw [hc.predsOf_eq] at hj
    have hreach := (hg.edge_of_mem_preds hrecorded.reachable (List.mem_of_getElem? hj)).1
    obtain ⟨w, hw, u, hu, heq⟩ := forall₂_getElem? hrecorded.values hj
    obtain ⟨a, ha, hvalue⟩ := Option.bind_eq_some_iff.mp hu
    rw [hargs, List.getElem?_map, hw, Option.map_some, Option.some_inj, heq] at hv
    subst hv
    have hsource := ((hc.table.scanned c a ha).values m.place u hvalue).1
    have hidem := hc.image.resolves.idem u
    refine hc.leadsToEnd hg hreach (hc.image.resolves.source hsource) ?_
    rw [hidem]
    exact hs.supplied c a ha m.place u hvalue

end

theorem settle_of_le {order : List BlockId} {rounds rounds' : Nat} {r : (Unit × Progress) × FlowGraph}
    (hrun : (settle n order rounds).run p h = .ok r) (hle : rounds ≤ rounds') :
    (settle n order rounds').run p h = .ok r := by
  induction rounds generalizing p h rounds' with
  | zero => cases hrun
  | succ rounds ih =>
    obtain ⟨rounds', rfl⟩ := Nat.exists_eq_add_of_lt hle
    unfold settle at hrun ⊢
    obtain ⟨⟨⟨changed, p₁⟩, h₁⟩, hround, hrest⟩ := bind_eq_ok.mp hrun
    refine bind_eq_ok.mpr ⟨((changed, p₁), h₁), hround, ?_⟩
    cases changed with
    | true => exact ih hrest (by omega)
    | false => exact hrest

/-- Carrying what is known along edges comes to an end in every graph that the check accepts, after one round more at
most than there are places to become known at the ends of blocks. It starts where the walk over each block by itself has
left off. Then the equations for the places known at the starts and the ends of all blocks hold, and what is known at an
end has a value. The values at the ends of blocks, and what the phis made on the way take from there, are definitions
that dominate these ends, once replacements are followed. -/
theorem availability_settles (hg : Definite g) (hnarrow : Narrow g) (hn : number g = .ok n)
    (hscan : (g.reversePostorder.forM (visitBlock n)).run {} g = .ok (((), p₀), h₀)) :
    ∃ p h, (∀ rounds, g.reversePostorder.length * n.size < rounds →
        (settle n g.reversePostorder rounds).run p₀ h₀ = .ok (((), p), h)) ∧
      (∀ b, h.Reachable b ↔ g.Reachable b) ∧
      (∀ b, h.Reachable b → ∃ a₀ a, available? p₀ b = some a₀ ∧ available? p b = some a ∧
        a.generated = a₀.generated ∧ a.killed = a₀.killed ∧ Settled p h b a) ∧
      ∀ phi ∈ p.pending, ∃ b, h.Reachable b ∧ PhiSettled p h b phi := by
  obtain ⟨⟨ρ, hw⟩, hown⟩ := (Walked.visitAll hg (number_of_ok hn)).post_of_ok hscan
  obtain ⟨hs₀, hcomplete₀⟩ := Supplying.start hg hw hown
  have henough : g.reversePostorder.length * n.size <
      weight g.reversePostorder p₀ + (g.reversePostorder.length * n.size + 1) := by omega
  have hsettles := hs₀.settle hg hnarrow hcomplete₀ (fun b => hg.reachable_of_mem_order) henough
  obtain ⟨_, p, h, hrun, hs, hcomplete, hsame, hincoming⟩ := hsettles.exists_ok
  obtain ⟨made, hc⟩ := hs.carried
  refine ⟨p, h, fun rounds hrounds => settle_of_le hrun hrounds, fun b => hc.reachable_iff hg, fun b hb => ?_,
    fun phi hphi => ?_⟩
  · obtain ⟨a, ha, hin⟩ := hincoming b (hg.mem_order ((hc.reachable_iff hg).mp hb))
    have hsame := hsame b
    rw [ha, Option.map_some] at hsame
    obtain ⟨a₀, ha₀, heq⟩ := Option.map_eq_some_iff.mp hsame.symm
    obtain ⟨hgenerated, hkilled⟩ := Prod.mk.inj heq
    exact ⟨a₀, a, ha₀, ha, hgenerated.symm, hkilled.symm, hs.settled hg hcomplete ha hin⟩
  · obtain ⟨b, hb, hsettled⟩ := hs.phiSettled hg hphi
    exact ⟨b, (hc.reachable_iff hg).mpr hb, hsettled⟩

/-- Stores different values into a field of the parameter on the two sides of a branch, and loads it behind the block in
which they meet. -/
def mergedStores : List Command :=
  [.targetBlock, .targetBlock, .joinBlock, .joinBlock,
    .inst (.constant (.smi 1)), .inst (.constant (.smi 2)), .inst (.branch (.relational .lt ⟨0⟩ ⟨1⟩ none) ⟨2⟩ ⟨3⟩),
    .appendTo ⟨2⟩, .inst (.loadLocal 0), .inst (.constant (.smi 3)), .inst (.storeField 8 false ⟨3⟩ ⟨4⟩),
    .inst (.goto ⟨4⟩),
    .appendTo ⟨3⟩, .inst (.loadLocal 0), .inst (.constant (.smi 4)), .inst (.storeField 8 false ⟨7⟩ ⟨8⟩),
    .inst (.goto ⟨4⟩),
    .appendTo ⟨4⟩, .inst (.goto ⟨5⟩),
    .appendTo ⟨5⟩, .inst (.loadLocal 0), .inst (.loadField 8 .dynamic .unknown false ⟨12⟩), .inst (.unary .ret ⟨13⟩)]

/-- What is to be seen of the rounds over the graph, computed. -/
def mergedStoresHold (r : FlowGraph) : Bool :=
  match Ssa.construct.run r with
  | .ok (.ok (), g) =>
    match number g with
    | .ok n =>
      match (g.reversePostorder.forM (visitBlock n)).run {} g with
      | .ok (((), p₀), h₀) =>
        match (settle n g.reversePostorder (g.reversePostorder.length * n.size + 1)).run p₀ h₀ with
        | .ok (((), p), _) => decide (DefiniteSeen g) && g.blocks.all (fun k => k.preds.length < Edit.inputLimit) &&
          p.pending == [⟨17⟩]
        | .error _ => false
      | .error _ => false
    | .error _ => false
  | _ => false

/-- A phi is made of the two values, and control comes from both of them to the block that it is made for. -/
theorem mergedStores_settle : ∃ g n p₀ h₀ p h, Definite g ∧ Narrow g ∧ number g = .ok n ∧
    (g.reversePostorder.forM (visitBlock n)).run {} g = .ok (((), p₀), h₀) ∧
    (settle n g.reversePostorder (g.reversePostorder.length * n.size + 1)).run p₀ h₀ = .ok (((), p), h) ∧
    p.pending = [⟨17⟩] ∧ ∃ b a, h.Reachable b ∧ PhiSettled p h b ⟨17⟩ ∧ available? p b = some a ∧ Settled p h b a := by
  have hcompute : ((Command.script mergedStores FlowGraph.normalEntry (FlowGraph.new "f" 1 1)).map
      (mergedStoresHold ·.2)) = some true := by decide +kernel
  obtain ⟨⟨b₀, r⟩, hscript, hholds⟩ := Option.map_eq_some_iff.mp hcompute
  unfold mergedStoresHold at hholds
  split at hholds
  case h_2 => cases hholds
  case h_1 g hg =>
    split at hholds
    case h_2 => cases hholds
    case h_1 n hn =>
      split at hholds
      case h_2 => cases hholds
      case h_1 p₀ h₀ hscan =>
        split at hholds
        case h_2 => cases hholds
        case h_1 p' h' hrun =>
          simp only [Bool.and_eq_true, beq_iff_eq, decide_eq_true_eq, Array.all_eq_true'] at hholds
          obtain ⟨⟨hseen, hshort⟩, hpending⟩ := hholds
          have hnarrow : Narrow g := by
            intro b hb
            obtain ⟨k, hk⟩ := exists_block hseen.definite hb
            simpa [predsOf, hk] using hshort k (Array.mem_of_getElem? hk)
          obtain ⟨p, h, hruns, -, hblocks, hphis⟩ := availability_settles hseen.definite hnarrow hn hscan
          obtain ⟨heq, rfl⟩ := Prod.mk.inj (Except.ok.inj (hrun.symm.trans (hruns _ (Nat.lt_succ_self _))))
          obtain ⟨-, rfl⟩ := Prod.mk.inj heq
          obtain ⟨b, hb, hphi⟩ := hphis ⟨17⟩ (by rw [hpending]; exact List.mem_singleton_self _)
          obtain ⟨-, a, -, ha, -, -, hsettled⟩ := hblocks b hb
          exact ⟨g, n, p₀, h₀, p', h', hseen.definite, hnarrow, hn, hscan, hrun, hpending, b, a, hb, hphi, ha, hsettled⟩

end Midend.Loads

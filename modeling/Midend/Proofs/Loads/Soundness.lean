import Midend.Proofs.Builder
import Midend.Proofs.Execution.Runs
import Midend.Proofs.Loads.Emitting
import Midend.Proofs.Loads.Forwarding

/-! # What loads would have read

Taken together, what the elimination of loads found out says how each load that it took out is avoided: wherever an
execution comes to such a load, the definition that is read in its place holds what the load would have read.
-/

namespace Midend.Loads

open Midend.Flow FlowGraph Ssa Execution

variable {g h : FlowGraph} {ρ : InstId → InstId} {made : InstId → Option Merge} {b c : BlockId} {d i u v w : InstId}
  {p : Progress} {n : Numbering} {k : Nat} {front rest : List InstId} {m : Node}

theorem forall₂_getElem? {α β : Type} {r : α → β → Prop} {xs : List α} {ys : List β} (h : List.Forall₂ r xs ys)
    {j : Nat}
    {x : α} (hx : xs[j]? = some x) : ∃ y, ys[j]? = some y ∧ r x y := by
  induction h generalizing j with
  | nil => cases hx
  | cons hr _ ih =>
    cases j with
    | zero =>
      obtain rfl := Option.some_inj.mp hx
      exact ⟨_, rfl, hr⟩
    | succ j => exact ih hx

/-! ## What was found out -/

def forwarding (g : FlowGraph) (n : Numbering) (ρ : InstId → InstId) (made : InstId → Option Merge) (p : Progress) :
    Forwarding where
  standIn := ρ
  place k := n.places[k]?
  merges b d := ∃ m, made d = some m ∧ m.block = b ∧ ρ d = d
  input d j := (made d).bind fun m => (m.values.map ρ)[j]?
  known b rest k w := g.Reachable b ∧ ∃ front, g.insts b = front ++ rest ∧ Known g n ρ made p b front k w

theorem Table.known_end (ht : Table g n ρ made p) (hu : valueAt p b k = some u)
    (hk : ∃ a, available? p b = some a ∧ k ∈ a.outgoing) : Known g n ρ made p b (g.insts b) k (ρ u) := by
  obtain ⟨a, ha, hout⟩ := hk
  have hv : a.value? k = some u := by simpa [valueAt, ha] using hu
  have hs := ht.scanned b a ha
  by_cases hgenerated : k ∈ a.generated
  · obtain ⟨v, hv', hsettles⟩ := hs.generated k hgenerated
    obtain rfl := Option.some_inj.mp (hv.symm.trans hv')
    exact .inl hsettles
  · obtain ⟨hin, hkilled⟩ := (ht.outgoing b a ha k hout).2.resolve_left hgenerated
    obtain ⟨-, hmerged⟩ := ((hs.values k u hv).2.resolve_left hgenerated).resolve_left hkilled
    exact .inr ⟨a, u, ha, hin, hmerged, rfl, hs.killed k hkilled⟩

theorem Table.ends_of_incoming (ht : Table g n ρ made p) {a : Availability} (ha : available? p b = some a)
    (hk : k ∈ a.incoming) (hc : c ∈ predsOf g b) (hu : valueAt p c k = some u) :
    Known g n ρ made p c (g.insts c) k (ρ u) :=
  ht.known_end hu ((ht.incoming b a ha k hk).2 c hc)

theorem Known.exists_place (ht : Table g n ρ made p) (hk : Known g n ρ made p b front k w) :
    ∃ place, n.places[k]? = some place := by
  obtain ⟨_, _, _, -, ⟨_, place, -, hplace, -⟩, -⟩ | ⟨a, v, ha, hin, -⟩ := hk
  · exact ⟨place, hplace⟩
  · obtain ⟨hne, hall⟩ := ht.incoming b a ha k hin
    obtain ⟨c, hc⟩ := List.exists_mem_of_ne_nil _ hne
    obtain ⟨e, he, hout⟩ := hall c hc
    exact ⟨_, List.getElem?_eq_getElem (ht.outgoing c e he k hout).1⟩

theorem Known.follows (hk : Known g n ρ made p b (front ++ [i]) k w) :
    Known g n ρ made p b front k w ∧ Spares g n [i] k ∨ Provides g n ρ i k w := by
  obtain ⟨before, j, after, hsplit, hprovides, hspares⟩ | ⟨a, v, ha, hin, hmerged, rfl, hspares⟩ := hk
  · obtain rfl | ⟨after, x, rfl⟩ := List.eq_nil_or_concat' after
    · obtain ⟨rfl, heq⟩ := List.append_inj' hsplit rfl
      obtain rfl : i = j := by simpa using heq
      exact .inr hprovides
    · rw [← List.cons_append, ← List.append_assoc] at hsplit
      obtain ⟨rfl, heq⟩ := List.append_inj' hsplit rfl
      obtain rfl : i = x := by simpa using heq
      exact .inl ⟨.inl ⟨before, j, after, rfl, hprovides, fun j hj => hspares j (List.mem_append_left _ hj)⟩,
        fun j hj => hspares j (List.mem_append_right _ hj)⟩
  · exact .inl ⟨.inr ⟨a, v, ha, hin, hmerged, rfl, fun j hj => hspares j (List.mem_append_left _ hj)⟩,
      fun j hj => hspares j (List.mem_append_right _ hj)⟩

theorem Image.livePhi_iff_of_lt (hi : Image g h ρ made) (hlt : d.index < g.nodes.size) : LivePhi h b d ↔
    LivePhi g b d := by
  unfold LivePhi
  rw [hi.outline.oldPhis b d hlt, aliveIn_iff, aliveIn_iff]
  refine and_congr_right fun _ => ?_
  obtain ⟨o, ho⟩ : ∃ o, g.nodes[d.index]? = some o := ⟨_, Array.getElem?_eq_getElem hlt⟩
  obtain ⟨o', f, ho', hinst⟩ := hi.wired.shapes d o ho
  simp [ho, ho', hinst]

namespace Emitting

variable (hg : Definite g) (he : Emitting g n ρ made [] p h)

include hg he

omit hg in
theorem alive_of_block (hmade : (made d).isSome = true) (hm : h.nodes[d.index]? = some m) (hb : m.block ≠ none) :
    ρ d = d ∧ m.inst.isAlivePhi = true := by
  obtain ⟨hfixed, hpending | ⟨-, halive⟩⟩ := he.phis d m hmade hm hb
  · cases (he.pending d hpending).1
  · exact ⟨hfixed, halive⟩

omit hg in
theorem merges_of_livePhi (hlt : g.nodes.size ≤ d.index) (hphi : LivePhi h b d) :
    ∃ m, made d = some m ∧ m.block = b ∧ ρ d = d ∧ Counts g h d := by
  have hmade := (he.image.outline.created d).mpr ⟨hlt, he.image.outline.phisIn b d hphi.1⟩
  obtain ⟨l, hl⟩ := Option.isSome_iff_exists.mp hmade
  obtain ⟨o, ho, -⟩ := Definite.exists_alive hphi
  obtain ⟨hwhere, hphis⟩ := he.image.outline.newPhis d l o hl ho
  have hb := (hphis b).mp hphi.1
  have hne : o.block ≠ none := by simp [hb]
  obtain hblock | hnone := hwhere
  · exact ⟨l, hl, Option.some_inj.mp (hblock.symm.trans hb), (he.alive_of_block hmade ho hne).1,
      .inr (.inr ⟨hlt, o, ho, hne⟩)⟩
  · exact absurd hnone hne

omit hg in
theorem counts_of_read (hb : g.Reachable b) (hi : i ∈ h.insts b ∨ LivePhi h b i) : Counts g h i := by
  obtain hi | hphi := hi
  · exact .inl ⟨b, hb, hi⟩
  · by_cases hlt : i.index < g.nodes.size
    · exact .inr (.inl ⟨b, hb, (he.image.livePhi_iff_of_lt hlt).mp hphi⟩)
    · obtain ⟨-, -, -, -, hcount⟩ := he.merges_of_livePhi (Nat.not_lt.mp hlt) hphi
      exact hcount

omit hg in
theorem collects {l : Merge} (hl : made d = some l) (hb : l.block = b) :
    (forwarding g n ρ made p).Collects g b l.place d := by
  subst hb
  intro j c hc hj
  have hrecorded := he.table.merges d l hl
  obtain ⟨a, ha, hin⟩ := hrecorded.known
  obtain ⟨w, hw, u, hu, heq⟩ := forall₂_getElem? hrecorded.values hj
  refine ⟨ρ w, by simp [forwarding, hl, hw], hc, g.insts c, by simp, heq ▸ ?_⟩
  exact he.table.ends_of_incoming ha hin (List.mem_of_getElem? hj) hu

theorem sound : (forwarding g n ρ made p).Sound g h where
  insts b _ := he.image.outline.insts b
  preds b := by
    unfold predsOf
    rw [he.image.outline.preds b]
  entries := by
    have hcatch := he.image.outline.catchEntries
    unfold FlowGraph.next succs
    simp [hcatch]
  initial := he.image.outline.initial
  shapes := he.image.wired.shapes
  kept b i m hb hi hm := by
    have hcount : Counts g h i := hi.elim (fun hi => .inl ⟨b, hb, hi⟩) fun hi => .inr (.inl ⟨b, hb, hi⟩)
    obtain ⟨m', f, hm', -⟩ := he.image.wired.shapes i m hm
    exact ⟨m', hm', he.image.wired.kept i m m' hcount hm hm'⟩
  phis b d _ hphi := (he.image.livePhi_iff_of_lt (hg.lt_size_of_evaluates (.inr (.inr ⟨b, hphi⟩)))).mpr hphi
  newPhis b d _ hphi := by
    by_cases hlt : d.index < g.nodes.size
    · exact .inl ((he.image.livePhi_iff_of_lt hlt).mp hphi)
    · obtain ⟨l, hl, hb, hfixed, -⟩ := he.merges_of_livePhi (Nat.not_lt.mp hlt) hphi
      exact .inr ⟨l, hl, hb, hfixed⟩
  inputs b d j := by
    rintro ⟨l, hl, -, -⟩ hphi
    obtain ⟨l', hl', -, -, hcount⟩ := he.merges_of_livePhi ((he.image.outline.created d).mp (by rw [hl]; rfl)).1 hphi
    obtain rfl := Option.some_inj.mp (hl.symm.trans hl')
    obtain ⟨o, ho, -⟩ := Definite.exists_alive hphi
    simp [inputOf, forwarding, ho, hl, he.image.wired.merged d l o hl hcount ho]
  fresh b d := by
    rintro ⟨l, hl, -⟩
    exact ((he.image.outline.created d).mp (by rw [hl]; rfl)).1
  unique b c d := by
    rintro ⟨l, hl, rfl, -⟩ ⟨l', hl', rfl, -⟩
    rw [Option.some_inj.mp (hl.symm.trans hl')]
  collects c d := by
    rintro ⟨l, hl, hc, -⟩
    exact ⟨l.place, he.collects hl hc⟩
  gone := he.image.outline.gone
  same _ := he.image.same hg
  reads b i m a hb hi hm ha := by
    rintro ⟨c, ⟨l, hl, rfl, -⟩, hdead⟩
    have hmade : (made a).isSome = true := by rw [hl]; rfl
    obtain ⟨hlt, hsize⟩ := (he.image.outline.created a).mp hmade
    obtain ⟨o, ho⟩ : ∃ o, h.nodes[a.index]? = some o := ⟨_, Array.getElem?_eq_getElem hsize⟩
    have hblock := he.image.wired.reads i m a o (he.counts_of_read hb hi) hm ha hlt ho
    obtain ⟨hwhere, hphis⟩ := he.image.outline.newPhis a l o hl ho
    exact hdead ⟨(hphis l.block).mpr (hwhere.resolve_right hblock),
      aliveIn_iff.mpr ⟨o, ho, (he.alive_of_block hmade ho hblock).2⟩⟩
  numbered b rest k w := fun ⟨_, front, _, hknown⟩ => hknown.exists_place he.table
  step b front i rest m k w hb hsplit hm := by
    rintro ⟨-, front', hsplit', hknown⟩
    obtain rfl : front' = front ++ [i] := by
      refine List.append_cancel_right (hsplit'.symm.trans ?_)
      rw [hsplit, List.append_assoc]
      rfl
    obtain ⟨hbefore, hspares⟩ | ⟨m', place, hm', hplace, hwhat⟩ := hknown.follows
    · exact .inl ⟨⟨hb, front, hsplit, hbefore⟩, fun place hplace =>
        hspares i (List.mem_singleton_self i) m place hm hplace⟩
    obtain rfl := Option.some_inj.mp (hm.symm.trans hm')
    obtain ⟨hload, rfl⟩ | ⟨q, v, hstore, hsame, rfl⟩ := hwhat
    · exact .inr (.inr ⟨place, hplace, hload, rfl⟩)
    · exact .inr (.inl ⟨place, q, v, hplace, hstore, hsame, rfl⟩)
  removed b front i rest m hb hsplit hm hgone := by
    obtain ⟨front', rest', m', k, place, hsplit', hm', hload, hplace, hknown⟩ := he.gone b i (by simp [hsplit]) hgone
    obtain ⟨rfl, rfl⟩ := hg.split_unique hsplit hsplit'
    obtain rfl := Option.some_inj.mp (hm.symm.trans hm')
    exact ⟨k, place, hload, hplace, hb, front, hsplit, hknown⟩
  edge c k w hc := by
    rintro ⟨-, front, hsplit, hknown⟩
    obtain rfl : front = [] := by simpa using hsplit
    obtain ⟨before, j, after, hnil, -⟩ | ⟨a, v, ha, hin, hmerged, rfl, -⟩ := hknown
    · simp at hnil
    obtain hall | ⟨l, hl, hb, hk⟩ := hmerged
    · refine .inl fun j b hb hj => ⟨hb, g.insts b, by simp, ?_⟩
      obtain ⟨u, hu, heq⟩ := hall b (List.mem_of_getElem? hj)
      exact heq ▸ he.table.ends_of_incoming ha hin (List.mem_of_getElem? hj) hu
    · by_cases hfixed : ρ v = v
      · have hcollects := he.collects hl hb
        rw [hk] at hcollects
        rw [hfixed]
        exact .inr ⟨⟨l, hl, hb, hfixed⟩, hcollects⟩
      · -- A phi that gave way only took the one value.
        refine .inl fun j b hb' hj => ⟨hb', g.insts b, by simp, ?_⟩
        subst hb
        obtain ⟨w, hw, u, hu, heq⟩ := forall₂_getElem? (he.table.merges v l hl).values hj
        rw [← he.collapsed v l hl hfixed w (List.mem_of_getElem? hw), heq]
        subst hk
        exact he.table.ends_of_incoming ha hin (List.mem_of_getElem? hj) hu
  start k w := by
    rintro ⟨-, front, hsplit, hknown⟩
    obtain rfl : front = [] := by simpa [hg.entry] using hsplit
    obtain ⟨before, j, after, hnil, -⟩ | ⟨a, v, ha, hin, -⟩ := hknown
    · simp at hnil
    · exact (he.table.incoming graphEntry a ha k hin).1 hg.preds_graphEntry

end Emitting

/-! ## Following the pointers -/

/-- So many pointers lead from a definition to `e`, where they end. -/
inductive Ends (h : FlowGraph) (e : InstId) : Nat → InstId → Prop
  | here {m : Node} (hm : h.nodes[e.index]? = some m) (hnone : m.replacement = none) : Ends h e 0 e
  | next {k : Nat} {d r : InstId} (hr : Replaces h d r) (hends : Ends h e k r) : Ends h e (k + 1) d

namespace Ends

variable {e : InstId} {j : Nat}

theorem unique (hk : Ends h e k d) (hj : Ends h e j d) : k = j := by
  induction hk generalizing j with
  | here hm hnone =>
    cases hj with
    | here => rfl
    | next hr =>
      obtain ⟨m', hm', hr⟩ := hr
      obtain rfl := Option.some_inj.mp (hm.symm.trans hm')
      rw [hnone] at hr
      cases hr
  | next hr hends ih =>
    obtain ⟨m, hm, hr⟩ := hr
    cases hj with
    | here hm' hnone =>
      obtain rfl := Option.some_inj.mp (hm.symm.trans hm')
      rw [hnone] at hr
      cases hr
    | next hr' hends' =>
      obtain ⟨m', hm', hr'⟩ := hr'
      obtain rfl := Option.some_inj.mp (hm.symm.trans hm')
      obtain rfl := Option.some_inj.mp (hr.symm.trans hr')
      rw [ih hends']

theorem of_chain (hchain : Relation.ReflTransGen (Replaces h) d e) (hm : h.nodes[e.index]? = some m)
    (hnone : m.replacement = none) : ∃ k, Ends h e k d := by
  induction hchain using Relation.ReflTransGen.head_induction_on with
  | refl => exact ⟨0, .here hm hnone⟩
  | head hr _ ih =>
    obtain ⟨k, hk⟩ := ih
    exact ⟨k + 1, .next hr hk⟩

theorem exists_path (hk : Ends h e k d) : ∃ path : List InstId, path.length = k + 1 ∧ path.Nodup ∧
    ∀ x ∈ path, x.index < h.nodes.size ∧ ∃ j ≤ k, Ends h e j x := by
  induction hk with
  | here hm hnone =>
    refine ⟨[e], rfl, List.nodup_singleton e, fun x hx => ?_⟩
    obtain rfl := List.mem_singleton.mp hx
    exact ⟨(Array.getElem?_eq_some_iff.mp hm).1, 0, Nat.le_refl 0, .here hm hnone⟩
  | @next k d r hr hends ih =>
    obtain ⟨path, hlength, hnodup, hall⟩ := ih
    refine ⟨d :: path, by simp [hlength], List.nodup_cons.mpr ⟨fun hd => ?_, hnodup⟩, fun x hx => ?_⟩
    · obtain ⟨-, j, hj, hends'⟩ := hall d hd
      have := (Ends.next hr hends).unique hends'
      omega
    · obtain rfl | hx := List.mem_cons.mp hx
      · have hends' := Ends.next hr hends
        obtain ⟨m, hm, -⟩ := hr
        exact ⟨(Array.getElem?_eq_some_iff.mp hm).1, k + 1, Nat.le_refl _, hends'⟩
      · obtain ⟨hlt, j, hj, hends'⟩ := hall x hx
        exact ⟨hlt, j, Nat.le_succ_of_le hj, hends'⟩

theorem lt_size (hk : Ends h e k d) : k < h.nodes.size := by
  obtain ⟨path, hlength, hnodup, hall⟩ := hk.exists_path
  have hsub : path.map InstId.index ⊆ List.range h.nodes.size := by
    intro x hx
    obtain ⟨y, hy, rfl⟩ := List.mem_map.mp hx
    exact List.mem_range.mpr (hall y hy).1
  have hinjective : (path.map InstId.index).Nodup := hnodup.map fun _ _ heq => InstId.index_inj.mp heq
  have hle := (hinjective.subperm hsub).length_le
  rw [List.length_map, List.length_range, hlength] at hle
  exact hle

theorem resolveWithin (hk : Ends h e k d) {steps : Nat} (hsteps : k < steps) : resolveWithin h steps d = .ok e := by
  induction hk generalizing steps with
  | here hm hnone =>
    obtain ⟨steps, rfl⟩ := Nat.exists_eq_add_of_lt hsteps
    simp [Loads.resolveWithin, node_eq_ok.mpr hm, hnone, bind, Except.bind, pure, Except.pure]
  | next hr hends ih =>
    obtain ⟨m, hm, hr⟩ := hr
    obtain ⟨steps, rfl⟩ := Nat.exists_eq_add_of_lt hsteps
    unfold Loads.resolveWithin
    simp only [node_eq_ok.mpr hm, hr, bind, Except.bind]
    exact ih (by omega)

theorem resolve (hk : Ends h e k d) : resolve h d = .ok e := hk.resolveWithin (Nat.lt_succ_of_lt hk.lt_size)

end Ends

theorem Image.resolve_eq (hg : Definite g) (hi : Image g h ρ made) (hd : Source g made d)
    (hnot : ∀ r, Evaluates g (ρ d) → ¬ Replaces h (ρ d) r) : resolve h d = .ok (ρ d) := by
  have hsource := hi.resolves.source hd
  obtain ⟨m, hm⟩ : ∃ m, h.nodes[(ρ d).index]? = some m := ⟨_, Array.getElem?_eq_getElem (hi.lt_size hg hsource)⟩
  have hnone : m.replacement = none := by
    cases hreplacement : m.replacement with
    | none => rfl
    | some r =>
      have hreplaced : Replaces h (ρ d) r := ⟨m, hm, hreplacement⟩
      obtain heval | hmade := hsource
      · exact absurd hreplaced (hnot r heval)
      · exact absurd (hi.resolves.idem d) (hi.resolves.moved (ρ d) r hmade hreplaced)
  obtain ⟨k, hends⟩ := Ends.of_chain (hi.resolves.chain d hd) hm hnone
  exact hends.resolve

/-! ## Loads that were taken out -/

/-- `d` is what the replacement of `i` leads to, and what is read in its place wherever `i` was read. -/
structure StandsFor (g g' : FlowGraph) (d i : InstId) : Prop where
  resolves : resolve g' i = .ok d
  uses : ∀ b u n n' (k : Nat), g.Reachable b → u ∈ g'.insts b ∨ LivePhi g b u → g.nodes[u.index]? = some n →
    g'.nodes[u.index]? = some n' → n.inst.args[k]? = some i → n'.inst.args[k]? = some d

/-- Some instruction that is left in `g'`, or some phi, reads the definition. -/
def Read (g g' : FlowGraph) (d : InstId) : Prop :=
  ∃ b i n, g.Reachable b ∧ (i ∈ g'.insts b ∨ LivePhi g' b i) ∧ g'.nodes[i.index]? = some n ∧ d ∈ n.inst.args

namespace Emitting

open Forwarding

variable {σ τ : Values} {μ : Memory} {s t : State Memory}

section

variable (hg : Definite g) (he : Emitting g n ρ made [] p h)

include hg he

theorem not_dropped (hd : Evaluates h d ∨ Read g h d) : ¬ Dropped h (forwarding g n ρ made p) d := by
  have hf := he.sound hg
  rintro ⟨c, hmerges, hdead⟩
  obtain (hinitial | ⟨b, hmem⟩ | ⟨b, hphi⟩) | ⟨b, u, m, hb, hu, hm, hread⟩ := hd
  · rw [hf.initial] at hinitial
    exact not_merges_of_lt hf (hg.lt_size_of_evaluates (.inl hinitial)) hmerges
  · rw [he.image.outline.insts] at hmem
    exact not_merges_of_lt hf (hg.lt_size (List.mem_filter.mp hmem).1) hmerges
  · obtain ⟨l, hl, hb, hfixed, -⟩ := he.merges_of_livePhi (hf.fresh c d hmerges) hphi
    exact hdead (hf.unique b c d ⟨l, hl, hb, hfixed⟩ hmerges ▸ hphi)
  · exact hf.reads b u m d hb hu hm hread ⟨c, hmerges, hdead⟩

theorem resolve_of_beside (hbeside : Beside g h (forwarding g n ρ made p) s τ) (hi : Evaluates g i)
    (hvalue : (τ (ρ i)).isSome = true) : resolve h i = .ok (ρ i) := by
  refine he.image.resolve_eq hg (.inl hi) fun r heval hreplaced => he.image.resolves.stays (ρ i) r heval ?_ hreplaced
  -- A load that was taken out itself would have no value.
  by_contra hgone
  simp only [not_or, Bool.not_eq_false, Bool.not_eq_true] at hgone
  obtain ⟨b, hb⟩ := Layout.isPlaced_iff.mp hgone.1
  rw [hbeside.none_of_gone hg (he.sound hg) ⟨⟨b, hg.located.mem_insts_iff.mpr hb⟩, hgone.2⟩] at hvalue
  cases hvalue

theorem standsFor (hbeside : Beside g h (forwarding g n ρ made p) s τ) (hi : Evaluates g i)
    (hvalue : (τ (ρ i)).isSome = true) : StandsFor g h (ρ i) i where
  resolves := he.resolve_of_beside hg hbeside hi hvalue
  uses b u o o' k hb hu ho ho' hk := by
    obtain ⟨o'', ho'', hinst⟩ := (he.sound hg).kept b u o hb hu ho
    obtain rfl := Option.some_inj.mp (ho'.symm.trans ho'')
    rw [hinst, Inst.args_mapArgs_const, List.getElem?_map, hk]
    rfl

end

end Emitting

theorem eliminateLoads_of_ok (hg : Definite g) : Leads True g eliminateLoads fun _ g' =>
    g' = g ∨ ∃ n ρ made p, Emitting g n ρ made [] p g' := by
  unfold eliminateLoads
  rw [Leads.bind_iff, Leads.get_iff, Leads.bind_iff, Leads.lift_iff]
  refine Yields.of_ok fun n hn => ?_
  rw [Leads.ite_iff]
  refine ⟨fun _ => .inl rfl, fun _ => ?_⟩
  rw [Leads.bind_iff]
  refine Leads.mono (forwardAll_emits hg (number_of_ok hn)) ?_
  rintro ⟨_, p⟩ g' ⟨ρ, made, he⟩
  exact .inr ⟨n, ρ, made, p, he⟩

variable {g' : FlowGraph} {σ : Values} {μ : Memory} {t : State Memory} {changed : Bool}

/-- Wherever an execution comes to a load that was taken out, an execution of the graph without it comes to the same
point with the same memory, and the definition that is read in the place of the load holds what the load would have
read. -/
theorem eliminateLoads_keeps_values (hg : Definite g) (hrun : eliminateLoads.run g = .ok (changed, g'))
    (hs : Reaches g memoryMeaning ⟨b, i :: rest, σ, μ⟩) (hstep : Step g memoryMeaning ⟨b, i :: rest, σ, μ⟩ t)
    (hgone : g'.isPlaced i = false) :
    ∃ n place v d s', (g.nodes[i.index]? = some n ∧ loadedPlace? n.inst = some place ∧ place.contents σ μ = some v ∧
      t.values i = some v) ∧ StandsFor g g' d i ∧
      (Reaches g' memoryMeaning s' ∧ s'.block = b ∧ s'.rest = rest.filter (g'.isPlaced ·) ∧ s'.memory = μ) ∧
      (Evaluates g' d ∨ Read g g' d → s'.values d = some v) := by
  obtain rfl | ⟨numbering, ρ, made, p, he⟩ := (eliminateLoads_of_ok hg).post_of_ok hrun
  · obtain ⟨τ, hbeside⟩ : ∃ τ, Forwarding.Beside g' g' (forwarding g' {} id (fun _ => none) {}) _ τ :=
      Forwarding.exists_beside hs
    obtain ⟨-, front, hfront⟩ := hbeside.within hg
    rw [hg.isPlaced_of_mem (by rw [hfront]; simp)] at hgone
    cases hgone
  have hf := he.sound hg
  obtain ⟨τ, hbeside⟩ : ∃ τ, Forwarding.Beside g g' (forwarding g numbering ρ made p) _ τ := Forwarding.exists_beside hs
  obtain ⟨hb, front, hfront⟩ := hbeside.within hg
  have hi : i ∈ g.insts b := by rw [hfront]; simp
  have hload (n : Node) (hn : g.nodes[i.index]? = some n) : ∃ place, loadedPlace? n.inst = some place ∧
      τ (ρ i) = place.contents σ μ := (hbeside.agrees hg hf).standIn_load hg hf hbeside hn hgone
  cases hstep with
  | @define _ _ _ _ _ μ' n v hn hdef hargs hdoes =>
    obtain ⟨place, hplace, hvalue⟩ := hload n hn
    have hcontents : place.contents σ μ = some v := (result_of_loads hplace hdoes hargs).symm
    rw [hcontents] at hvalue
    refine ⟨n, place, v, ρ i, Forwarding.image g' (forwarding g numbering ρ made p) _ τ,
      ⟨hn, hplace, hcontents, by simp⟩, he.standsFor hg hbeside (.inr (.inl ⟨b, hi⟩)) (by rw [hvalue]; rfl),
      ⟨hbeside.reaches hg hf, rfl, ?_, rfl⟩, fun hd => ?_⟩
    · simp [Forwarding.image, hgone]
    · exact (Forwarding.visible_eq (he.not_dropped hg hd)).trans hvalue
  | pass hn hdef =>
    obtain ⟨place, hplace, -⟩ := hload _ hn
    rw [isDefinition_of_loads hplace] at hdef
    cases hdef
  | jump hn hterm =>
    obtain ⟨place, hplace, -⟩ := hload _ hn
    rw [not_isTerminator_of_loads hplace] at hterm
    cases hterm

/-- The memory in which a field of an object has another value. -/
def withField (μ : Memory) (identity : Nat) (cls : ClassId) (offset : Nat) (v : Value) : Memory where
  field o k := match o with
    | .object a x => if a = identity ∧ x = cls ∧ k = offset then v else μ.field o k
    | .constant _ => μ.field o k
  element := μ.element

theorem writesField_withField {a offset : Nat} {x : ClassId} {v : Value} :
    μ.WritesField (.object a x) offset v (withField μ a x offset v) := by
  refine ⟨by simp [withField], fun o k hne => ?_, rfl⟩
  cases o with
  | constant => rfl
  | object b y =>
    refine if_neg ?_
    rintro ⟨rfl, rfl, rfl⟩
    exact hne ⟨rfl, rfl⟩

/-- One of the executions, as far as constants and fields go. -/
def memoryEvaluator (g : FlowGraph) : Evaluator g memoryMeaning where
  run σ μ d := match d with
    | .constant c => some (some (.constant c), μ)
    | .loadField offset _ _ _ object => (σ object).map fun o => (some (μ.field o offset), μ)
    | .storeField offset _ object value => match σ object, σ value with
      | some (.object a x), some v => some (some v, withField μ a x offset v)
      | _, _ => none
    | _ => none
  does := by
    intro σ μ i d result μ' _ hrun
    split at hrun
    case h_1 =>
      obtain ⟨-, rfl⟩ := Prod.mk.inj (Option.some_inj.mp hrun)
      exact fun _ => rfl
    case h_2 =>
      obtain ⟨o, ho, hrun⟩ := Option.map_eq_some_iff.mp hrun
      obtain ⟨rfl, rfl⟩ := Prod.mk.inj hrun
      refine ⟨rfl, fun o' ho' => ?_⟩
      obtain rfl := Option.some_inj.mp (ho.symm.trans ho')
      rfl
    case h_3 =>
      split at hrun
      case h_2 => cases hrun
      case h_1 a x v ha hv =>
        obtain ⟨-, rfl⟩ := Prod.mk.inj (Option.some_inj.mp hrun)
        intro o w ho hw
        obtain rfl := Option.some_inj.mp (ha.symm.trans ho)
        obtain rfl := Option.some_inj.mp (hv.symm.trans hw)
        exact writesField_withField
    case h_4 => cases hrun
  jumps _ := ⟨fun _ => rfl, trivial⟩
  branches _ _ := ⟨fun _ => rfl, trivial⟩

/-- Stores different values into a field of the parameter on the two sides of a branch, and loads it behind them. -/
def joinedStores : List Command :=
  [.targetBlock, .targetBlock, .joinBlock,
    .inst (.constant (.smi 1)), .inst (.constant (.smi 2)), .inst (.branch (.relational .lt ⟨0⟩ ⟨1⟩ none) ⟨2⟩ ⟨3⟩),
    .appendTo ⟨2⟩, .inst (.loadLocal 0), .inst (.constant (.smi 3)), .inst (.storeField 8 false ⟨3⟩ ⟨4⟩),
    .inst (.goto ⟨4⟩),
    .appendTo ⟨3⟩, .inst (.loadLocal 0), .inst (.constant (.smi 4)), .inst (.storeField 8 false ⟨7⟩ ⟨8⟩),
    .inst (.goto ⟨4⟩),
    .appendTo ⟨4⟩, .inst (.loadLocal 0), .inst (.loadField 8 .dynamic .unknown false ⟨11⟩), .inst (.unary .ret ⟨12⟩)]

def joinedRun (g : FlowGraph) : Option (State Memory) :=
  (memoryEvaluator g).after? 7
    (startState g (fun _ => .object 0 ⟨64⟩) ⟨fun _ _ => .constant .null, fun _ _ => .constant .null⟩)

def joinedStoresHolds (r : FlowGraph) : Bool :=
  match Ssa.construct.run r with
  | .ok (.ok (), g) =>
    match eliminateLoads.run g, joinedRun g with
    | .ok (_, g'), some s => decide (DefiniteSeen g) &&
      (g.initialDefinitions.all fun d => (g.nodes[d.index]?).isSome) && s.block == ⟨4⟩ && s.rest == [⟨12⟩, ⟨13⟩] &&
      !g'.isPlaced ⟨12⟩ && decide (LivePhi g' ⟨4⟩ ⟨16⟩) && (resolve g' ⟨12⟩).toOption == some ⟨16⟩ &&
      ((memoryEvaluator g).next? s).any fun t => (t.values ⟨12⟩).bind Value.smi? == some 3
    | _, _ => false
  | _ => false

/-- The load gives way to a phi, which is three when control comes from the side that stores a three. -/
theorem joinedStores_kept : ∃ g g' s t, Definite g ∧ (∃ changed, eliminateLoads.run g = .ok (changed, g')) ∧
    Reaches g memoryMeaning s ∧ Step g memoryMeaning s t ∧ s.block = ⟨4⟩ ∧ s.rest = [⟨12⟩, ⟨13⟩] ∧
    g'.isPlaced ⟨12⟩ = false ∧ StandsFor g g' ⟨16⟩ ⟨12⟩ ∧ LivePhi g' ⟨4⟩ ⟨16⟩ ∧
    ∃ s', Reaches g' memoryMeaning s' ∧ s'.block = ⟨4⟩ ∧ s'.values ⟨16⟩ = t.values ⟨12⟩ ∧
      (s'.values ⟨16⟩).bind Value.smi? = some 3 := by
  have hcompute : ((Command.script joinedStores FlowGraph.normalEntry (FlowGraph.new "f" 1 1)).map
      (joinedStoresHolds ·.2)) = some true := by decide +kernel
  obtain ⟨⟨b₀, r⟩, hscript, hholds⟩ := Option.map_eq_some_iff.mp hcompute
  unfold joinedStoresHolds at hholds
  split at hholds
  case h_2 => cases hholds
  case h_1 g hg =>
    split at hholds
    case h_2 => cases hholds
    case h_1 changed g' s hg' hs =>
      simp only [Bool.and_eq_true, beq_iff_eq, decide_eq_true_eq, List.all_eq_true, Bool.not_eq_true',
        Option.any_eq_true] at hholds
      obtain ⟨⟨⟨⟨⟨⟨⟨hseen, hinitial⟩, hblock⟩, hrest⟩, hgone⟩, hphi⟩, hresolve⟩, t, ht, hthree⟩ := hholds
      have hreached : Reaches g memoryMeaning s := ⟨_, start_startState hinitial, Evaluator.steps_of_after hs⟩
      have hstep : Step g memoryMeaning s t := Evaluator.step_of_next ht
      obtain ⟨b, rest, σ, μ⟩ := s
      obtain rfl : b = ⟨4⟩ := hblock
      obtain rfl : rest = [⟨12⟩, ⟨13⟩] := hrest
      obtain ⟨n, place, v, d, s', ⟨-, -, -, hv⟩, hstands, ⟨hreached', hblock', -, -⟩, hvalue⟩ :=
        eliminateLoads_keeps_values hseen.definite hg' hreached hstep hgone
      obtain rfl : d = ⟨16⟩ := Except.ok.inj (hstands.resolves.symm.trans (toOption_eq_some_iff.mp hresolve))
      have hvalue := hvalue (.inl (.inr (.inr ⟨_, hphi⟩)))
      exact ⟨g, g', _, t, hseen.definite, ⟨changed, hg'⟩, hreached, hstep, rfl, rfl, hgone, hstands, hphi, s',
        hreached', hblock', hvalue.trans hv.symm, by rw [hvalue, ← hv]; exact hthree⟩

end Midend.Loads

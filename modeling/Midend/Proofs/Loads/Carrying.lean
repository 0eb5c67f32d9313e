import Midend.Proofs.Loads.Scanning

/-! # What flows into a block

What is known at the ends of all predecessors of a block is known at its start, and through the block as long as
nothing may write the place. Where the predecessors hold different values, a phi was made of them.
-/

namespace Midend.Loads

open Midend.Flow FlowGraph Ssa Execution

variable {g h h' : FlowGraph} {ρ τ : InstId → InstId} {made made' : InstId → Option Merge} {b c : BlockId}
  {d i u v w : InstId} {p p' : Progress} {n : Numbering} {k : Nat} {front : List InstId} {a a' : Availability}

/-- The definition that holds a place at the end of a block. -/
def valueAt (p : Progress) (b : BlockId) (k : Nat) : Option InstId := (available? p b).bind (·.value? k)

/-- `v` holds what the place has at the ends of all predecessors, or it is the phi that was made of these values. -/
def Merged (g : FlowGraph) (ρ : InstId → InstId) (made : InstId → Option Merge) (p : Progress) (b : BlockId) (k : Nat)
    (v : InstId) : Prop :=
  (∀ c ∈ predsOf g b, ∃ u, valueAt p c k = some u ∧ ρ u = ρ v) ∨ ∃ m, made v = some m ∧ m.block = b ∧ m.place = k

/-- The phi was made of the values that its place has at the ends of the predecessors. -/
structure Recorded (g : FlowGraph) (ρ : InstId → InstId) (made : InstId → Option Merge) (p : Progress) (m : Merge) :
    Prop where
  reachable : g.Reachable m.block
  values : List.Forall₂ (fun c w => ∃ u, valueAt p c m.place = some u ∧ ρ w = ρ u) (predsOf g m.block) m.values
  sources : ∀ w ∈ m.values, Source g made w
  known : ∃ a, available? p m.block = some a ∧ m.place ∈ a.incoming

/-- Behind these instructions of a block the place is known to hold `w`. -/
def Known (g : FlowGraph) (n : Numbering) (ρ : InstId → InstId) (made : InstId → Option Merge) (p : Progress)
    (b : BlockId) (front : List InstId) (k : Nat) (w : InstId) : Prop :=
  Settles g n ρ front k w ∨ ∃ a v, available? p b = some a ∧ k ∈ a.incoming ∧ Merged g ρ made p b k v ∧ w = ρ v ∧
    Spares g n front k

/-! ## Knowing more -/

def Grows (p p' : Progress) : Prop :=
  ∀ b a, available? p b = some a → ∃ a', available? p' b = some a' ∧ a.incoming ⊆ a'.incoming ∧
    ∀ k v, a.value? k = some v → a'.value? k = some v

theorem Grows.of_blocks (hblocks : p'.blocks = p.blocks) : Grows p p' := by
  intro b a ha
  refine ⟨a, ?_, List.Subset.refl _, fun _ _ h => h⟩
  unfold available? at *
  rw [hblocks, ha]

theorem Grows.valueAt (hp : Grows p p') (hu : valueAt p c k = some u) : Loads.valueAt p' c k = some u := by
  obtain ⟨a, ha, hv⟩ := Option.bind_eq_some_iff.mp hu
  obtain ⟨a', ha', -, hvalues⟩ := hp c a ha
  exact Option.bind_eq_some_iff.mpr ⟨a', ha', hvalues k u hv⟩

section

variable (hmade : ∀ d m, made d = some m → made' d = some m) (hp : Grows p p')

include hmade hp

theorem Merged.mono (hm : Merged g ρ made p b k v) : Merged g (fun d => τ (ρ d)) made' p' b k v := by
  obtain hall | ⟨m, hm, hwhere⟩ := hm
  · refine .inl fun c hc => ?_
    obtain ⟨u, hu, heq⟩ := hall c hc
    exact ⟨u, hp.valueAt hu, congrArg τ heq⟩
  · exact .inr ⟨m, hmade v m hm, hwhere⟩

theorem Recorded.mono {m : Merge} (hr : Recorded g ρ made p m) : Recorded g (fun d => τ (ρ d)) made' p' m where
  reachable := hr.reachable
  values := hr.values.imp fun c w ⟨u, hu, heq⟩ => ⟨u, hp.valueAt hu, congrArg τ heq⟩
  sources w hw := (hr.sources w hw).mono hmade
  known := by
    obtain ⟨a, ha, hmem⟩ := hr.known
    obtain ⟨a', ha', hincoming, -⟩ := hp _ a ha
    exact ⟨a', ha', hincoming hmem⟩

theorem Known.mono (hk : Known g n ρ made p b front k w) : Known g n (fun d => τ (ρ d)) made' p' b front k (τ w) := by
  obtain hsettles | ⟨a, v, ha, hin, hmerged, rfl, hspares⟩ := hk
  · exact .inl hsettles.map
  · obtain ⟨a', ha', hincoming, -⟩ := hp b a ha
    exact .inr ⟨a', v, ha', hincoming hin, hmerged.mono hmade hp, rfl, hspares⟩

end

/-! ## The table -/

/-- What is known at the starts and ends of blocks. -/
structure Table (g : FlowGraph) (n : Numbering) (ρ : InstId → InstId) (made : InstId → Option Merge) (p : Progress) :
    Prop where
  visited : ∀ b, g.Reachable b → ∃ a, available? p b = some a
  reachable : ∀ b a, available? p b = some a → g.Reachable b
  scanned : ∀ b a, available? p b = some a →
    Scanned g n ρ made (g.insts b) (fun k v => k ∈ a.incoming ∧ Merged g ρ made p b k v) a
  outgoing : ∀ b a, available? p b = some a → ∀ k ∈ a.outgoing,
    k < n.size ∧ (k ∈ a.generated ∨ k ∈ a.incoming ∧ k ∉ a.killed)
  incoming : ∀ b a, available? p b = some a → ∀ k ∈ a.incoming, predsOf g b ≠ [] ∧
    ∀ c ∈ predsOf g b, ∃ a', available? p c = some a' ∧ k ∈ a'.outgoing
  merges : ∀ d m, made d = some m → Recorded g ρ made p m

namespace Table

theorem of_walked {order : List BlockId} (hw : Walked g n order [] ρ p h) (horder : ∀ b, b ∈ order ↔ g.Reachable b) :
    Table g n ρ (fun _ => none) p where
  visited b hb := hw.visited b ((horder b).mpr hb)
  reachable b a ha := (horder b).mp (hw.table b a ha).1
  scanned b a ha := (hw.table b a ha).2.2.2.mono (τ := id) (fun _ _ h => h) fun _ _ h => h.elim
  outgoing b a ha k hk := by
    obtain ⟨-, -, houtgoing, hs⟩ := hw.table b a ha
    obtain ⟨-, -, _, _, _, -, ⟨_, _, -, hplace, -⟩, -⟩ := hs.generated k (houtgoing k hk)
    exact ⟨(List.getElem?_eq_some_iff.mp hplace).1, .inl (houtgoing k hk)⟩
  incoming b a ha k hk := by
    rw [(hw.table b a ha).2.1] at hk
    cases hk
  merges _ _ hm := by cases hm

theorem mono (ht : Table g n ρ made p) (hmade : ∀ d m, made d = some m → made' d = some m)
    (hblocks : p'.blocks = p.blocks) (hnew : ∀ d m, made' d = some m → made d = none → Recorded g ρ made' p m) :
    Table g n (fun d => τ (ρ d)) made' p' := by
  have hsame (c : BlockId) : available? p' c = available? p c := by
    unfold available?
    rw [hblocks]
  have hgrows := Grows.of_blocks hblocks
  refine ⟨fun b hb => hsame b ▸ ht.visited b hb, fun b a ha => ht.reachable b a (hsame b ▸ ha), fun b a ha => ?_,
    fun b a ha => ht.outgoing b a (hsame b ▸ ha), fun b a ha k hk => ?_, fun d m hm => ?_⟩
  · refine (ht.scanned b a (hsame b ▸ ha)).mono hmade fun k v hv => ⟨hv.1, hv.2.mono hmade hgrows⟩
  · simp only [hsame]
    exact ht.incoming b a (hsame b ▸ ha) k hk
  · cases hold : made d with
    | none => exact (hnew d m hm hold).mono (fun _ _ h => h) hgrows
    | some m' =>
      obtain rfl := Option.some_inj.mp (hm.symm.trans (hmade d m' hold))
      exact (ht.merges d m hold).mono hmade hgrows

theorem update (ht : Table g n ρ made p) (ha : available? p b = some a)
    (hsame : a'.generated = a.generated ∧ a'.killed = a.killed ∧ a'.exposed = a.exposed)
    (hincoming : a.incoming ⊆ a'.incoming) (houtgoing : a.outgoing ⊆ a'.outgoing)
    (hvalues : ∀ k v, a.value? k = some v → a'.value? k = some v)
    (hnew : ∀ k v, a'.value? k = some v → a.value? k = some v ∨
      Source g made v ∧ k ∈ a'.incoming ∧ Merged g ρ made p b k v)
    (hout : ∀ k ∈ a'.outgoing, k < n.size ∧ (k ∈ a'.generated ∨ k ∈ a'.incoming ∧ k ∉ a'.killed))
    (hin : ∀ k ∈ a'.incoming, predsOf g b ≠ [] ∧ ∀ c ∈ predsOf g b, ∃ a, available? p c = some a ∧ k ∈ a.outgoing) :
    Table g n ρ made { p with blocks := p.blocks.insert b.index a' } ∧
      Grows p { p with blocks := p.blocks.insert b.index a' } := by
  have hgrows : Grows p { p with blocks := p.blocks.insert b.index a' } := by
    intro c e he
    rw [available?_insert]
    split
    case isTrue heq =>
      subst heq
      obtain rfl := Option.some_inj.mp (ha.symm.trans he)
      exact ⟨a', rfl, hincoming, hvalues⟩
    case isFalse => exact ⟨e, he, List.Subset.refl _, fun _ _ h => h⟩
  have hends (c : BlockId) (k : Nat) (hk : ∃ e, available? p c = some e ∧ k ∈ e.outgoing) :
      ∃ e, available? { p with blocks := p.blocks.insert b.index a' } c = some e ∧ k ∈ e.outgoing := by
    obtain ⟨e, he, hmem⟩ := hk
    rw [available?_insert]
    split
    case isTrue heq =>
      subst heq
      obtain rfl := Option.some_inj.mp (ha.symm.trans he)
      exact ⟨a', rfl, houtgoing hmem⟩
    case isFalse => exact ⟨e, he, hmem⟩
  have hmono {e : Availability} (c : BlockId) (hs : Scanned g n ρ made (g.insts c)
      (fun k v => k ∈ e.incoming ∧ Merged g ρ made p c k v) e) : Scanned g n ρ made (g.insts c)
      (fun k v => k ∈ e.incoming ∧ Merged g ρ made { p with blocks := p.blocks.insert b.index a' } c k v) e :=
    hs.mono (τ := id) (fun _ _ h => h) fun k v hv => ⟨hv.1, hv.2.mono (τ := id) (fun _ _ h => h) hgrows⟩
  refine ⟨⟨fun c hc => ?_, fun c e he => ?_, fun c e he => ?_, fun c e he => ?_, fun c e he k hk => ?_,
    fun d m hm => (ht.merges d m hm).mono (τ := id) (fun _ _ h => h) hgrows⟩, hgrows⟩
  · rw [available?_insert]
    split
    · exact ⟨a', rfl⟩
    · exact ht.visited c hc
  · rw [available?_insert] at he
    split at he
    case isTrue heq => exact heq ▸ ht.reachable b a ha
    case isFalse => exact ht.reachable c e he
  · rw [available?_insert] at he
    split at he
    case isTrue heq =>
      subst heq
      obtain rfl := Option.some_inj.mp he
      have hs := ht.scanned c a ha
      obtain ⟨hgenerated, hkilled, hexposed⟩ := hsame
      refine hmono c ⟨fun k hk => ?_, fun k hk => hs.killed k (hkilled ▸ hk), fun k hk => hs.bounded k (hkilled ▸ hk),
        fun k v hv => ?_, fun i hi => hs.exposed i (hexposed ▸ hi)⟩
      · obtain ⟨v, hv, hsettles⟩ := hs.generated k (hgenerated ▸ hk)
        exact ⟨v, hvalues k v hv, hsettles⟩
      · rw [hgenerated, hkilled]
        obtain hv | ⟨hsource, hflows⟩ := hnew k v hv
        · obtain ⟨hsource, hwhere⟩ := hs.values k v hv
          exact ⟨hsource, hwhere.imp_right (Or.imp_right fun hflows => ⟨hincoming hflows.1, hflows.2⟩)⟩
        · exact ⟨hsource, .inr (.inr hflows)⟩
    case isFalse => exact hmono c (ht.scanned c e he)
  · rw [available?_insert] at he
    split at he
    case isTrue heq =>
      obtain rfl := Option.some_inj.mp he
      exact hout
    case isFalse => exact ht.outgoing c e he
  · rw [available?_insert] at he
    split at he
    case isTrue heq =>
      subst heq
      obtain rfl := Option.some_inj.mp he
      exact (hin k hk).imp_right fun hall c' hc' => hends c' k (hall c' hc')
    case isFalse => exact (ht.incoming c e he k hk).imp_right fun hall c' hc' => hends c' k (hall c' hc')

end Table

/-! ## Carrying values along edges -/

/-- What is known while values are carried from block to block and loads give way to them. -/
structure Carried (g : FlowGraph) (n : Numbering) (ρ : InstId → InstId) (made : InstId → Option Merge) (p : Progress)
    (h : FlowGraph) : Prop where
  image : Image g h ρ made
  waiting : Waiting g h p
  table : Table g n ρ made p
  gone : GoneBy g h n ρ (Known g n ρ made p)
  /-- Nothing stands in for a phi yet. -/
  unmoved : ∀ d, (made d).isSome = true → ρ d = d

theorem GoneBy.mono {known known' : BlockId → List InstId → Nat → InstId → Prop} (hgone : GoneBy g h n ρ known)
    (hplaced : ∀ d, h'.isPlaced d = h.isPlaced d) (hknown : ∀ b front k w, known b front k w → known' b front k w) :
    GoneBy g h' n ρ known' := by
  intro b d hd hd'
  obtain ⟨front, rest, m, k, place, hsplit, hm, hload, hplace, hbefore⟩ := hgone b d hd (hplaced d ▸ hd')
  exact ⟨front, rest, m, k, place, hsplit, hm, hload, hplace, hknown _ _ _ _ hbefore⟩

theorem preds_eq (hi : Image g h ρ made) {ps : List BlockId} (hps : h.preds b = .ok ps) : ps = predsOf g b := by
  obtain ⟨k, hk, rfl⟩ := preds_eq_ok.mp hps
  have hsame := hi.outline.preds b
  rw [hk, Option.map_some] at hsame
  unfold predsOf
  rw [← hsame]
  rfl

theorem predValues_of_ok (hi : Image g h ρ made) (ht : Table g n ρ made p) {ps : List BlockId} {vs : List InstId}
    (hok : predValues h p k ps = .ok (some vs)) :
    List.Forall₂ (fun c w => ∃ u, valueAt p c k = some u ∧ Source g made u ∧ w = ρ u) ps vs := by
  induction ps generalizing vs with
  | nil =>
    obtain rfl := Option.some_inj.mp (pure_eq_ok.mp hok)
    exact .nil
  | cons c ps ih =>
    unfold predValues at hok
    cases hu : (available? p c).bind (·.value? k) with
    | none =>
      rw [hu] at hok
      cases pure_eq_ok.mp hok
    | some u =>
      rw [hu] at hok
      obtain ⟨w, hw, hok⟩ := bind_eq_ok.mp hok
      obtain ⟨vs', hvs', hok⟩ := bind_eq_ok.mp hok
      obtain ⟨vs'', rfl, rfl⟩ := Option.map_eq_some_iff.mp (pure_eq_ok.mp hok)
      obtain ⟨a, ha, hv⟩ := Option.bind_eq_some_iff.mp hu
      have hsource := ((ht.scanned c a ha).values k u hv).1
      exact .cons ⟨u, hu, hsource, hi.resolves.resolve_eq hsource hw⟩ (ih hvs')

namespace Carried

theorem merge (hg : Definite g) (hc : Carried g n ρ made p h) (ha : available? p b = some a) (hk : k ∈ a.incoming)
    {vs : List InstId} (hvs : List.Forall₂ (fun c w => ∃ u, valueAt p c k = some u ∧ Source g made u ∧ w = ρ u)
      (predsOf g b) vs) :
    Threads True h p (mergePhi b vs) fun v p' h' => ∃ made', Carried g n ρ made' p' h' ∧ p'.blocks = p.blocks ∧
      Source g made' v ∧ Merged g ρ made' p' b k v := by
  have hi := hc.image
  have hvalues : ∀ v ∈ vs, Source g made v ∧ ρ v = v := by
    intro v hv
    obtain ⟨c, -, u, -, hsource, rfl⟩ := forall₂_mem_right hvs hv
    exact ⟨hi.resolves.source hsource, hi.resolves.idem u⟩
  refine (mergePhi_image (k := k) hg hi hc.waiting hvalues).mono ?_
  rintro _ p' h' ⟨rfl, hblocks, hwaiting, himage, hplaced⟩
  have hfresh : made h.nextId = none := by
    rw [← Option.not_isSome_iff_eq_none]
    exact fun hsome => Adds.ne_nextId hi hsome rfl
  have hmade : ∀ d m, made d = some m → Function.update made h.nextId (some ⟨b, k, vs⟩) d = some m := by
    intro d m hm
    rw [Function.update_of_ne, hm]
    rintro rfl
    rw [hfresh] at hm
    cases hm
  have htable : Table g n ρ (Function.update made h.nextId (some ⟨b, k, vs⟩)) p' := by
    refine hc.table.mono (τ := id) hmade hblocks fun d m hm hnone => ?_
    by_cases hd : d = h.nextId
    · rw [hd, Function.update_self] at hm
      obtain rfl := Option.some_inj.mp hm
      refine ⟨hc.table.reachable b a ha, hvs.imp ?_, fun w hw => ((hvalues w hw).1).mono hmade, a, ha, hk⟩
      rintro c w ⟨u, hu, -, rfl⟩
      exact ⟨u, hu, hi.resolves.idem u⟩
    · rw [Function.update_of_ne hd, hnone] at hm
      cases hm
  refine ⟨_, ⟨himage, hwaiting, htable, hc.gone.mono hplaced fun c front j w hknown => ?_, fun d hd => ?_⟩, hblocks,
    .inr (by simp), .inr ⟨_, Function.update_self _ _ _, rfl, rfl⟩⟩
  · exact hknown.mono (τ := id) hmade (.of_blocks hblocks)
  · by_cases heq : d = h.nextId
    · exact heq ▸ hi.resolves.fresh _ (Nat.le_refl _)
    · rw [Function.update_of_ne heq] at hd
      exact hc.unmoved d hd

theorem mergeIncoming (hg : Definite g) (hc : Carried g n ρ made p h) (ha : available? p b = some a)
    (hk : k ∈ a.incoming) : Threads True h p (mergeIncoming b k) fun r p' h' => ∃ made', Carried g n ρ made' p' h' ∧
    p'.blocks = p.blocks ∧
      ∀ v ∈ r, Source g made' v ∧ Merged g ρ made' p' b k v := by
  have hnone : ∃ made', Carried g n ρ made' p h ∧ p.blocks = p.blocks ∧
      ∀ v ∈ (none : Option InstId), Source g made' v ∧ Merged g ρ made' p b k v :=
    ⟨made, hc, rfl, by simp⟩
  unfold Loads.mergeIncoming
  simp only [Threads.bind_iff, Threads.getThe_iff, Threads.get_iff, Threads.read_iff]
  refine Yields.of_ok fun ps hps => Yields.of_ok fun r hr => ?_
  obtain rfl := preds_eq hc.image hps
  obtain _ | _ | ⟨v, vs⟩ := r
  · exact hnone
  · exact hnone
  · have hvs := predValues_of_ok hc.image hc.table hr
    simp only
    rw [Threads.ite_iff]
    refine ⟨fun hall => ?_, fun _ => ?_⟩
    · have hidem := hc.image.resolves.idem
      have hfixed (w : InstId) (hw : w ∈ v :: vs) : w = v := by
        obtain rfl | hw := List.mem_cons.mp hw
        · rfl
        · simpa using List.all_eq_true.mp hall w hw
      obtain ⟨c, -, u, -, hsource, hv⟩ := forall₂_mem_right hvs List.mem_cons_self
      refine ⟨made, hc, rfl, fun v' hv' => ?_⟩
      obtain rfl := Option.some_inj.mp hv'
      refine ⟨hv ▸ hc.image.resolves.source hsource, .inl fun c' hc' => ?_⟩
      obtain ⟨w, hw, u', hu', -, heq⟩ := forall₂_mem_left hvs hc'
      refine ⟨u', hu', ?_⟩
      rw [← heq, hfixed w hw, hv, hidem]
    · rw [Threads.bind_iff]
      refine (hc.merge hg ha hk hvs).mono ?_
      rintro phi p' h' ⟨made', hc', hblocks, hsource, hmerged⟩
      refine ⟨made', hc', hblocks, fun v' hv' => ?_⟩
      obtain rfl := Option.some_inj.mp hv'
      exact ⟨hsource, hmerged⟩

theorem update (hc : Carried g n ρ made p h) (hp : Table g n ρ made { p with blocks := p.blocks.insert b.index a' } ∧
    Grows p { p with blocks := p.blocks.insert b.index a' }) :
    Carried g n ρ made { p with blocks := p.blocks.insert b.index a' } h where
  image := hc.image
  waiting := hc.waiting.undisturbed .refl rfl rfl
  table := hp.1
  gone := hc.gone.mono (fun _ => rfl) fun _ _ _ _ hknown => hknown.mono (τ := id) (fun _ _ h => h) hp.2
  unmoved := hc.unmoved

theorem fillValue (hg : Definite g) (hc : Carried g n ρ made p h) (ha : available? p b = some a) (hk : k ∈ a.incoming)
    (hnone : a.value? k = none) :
    Threads True h p (fillValue b k) fun _ p' h' => ∃ made' a', Carried g n ρ made' p' h' ∧ available? p' b = some a' ∧
      a'.incoming = a.incoming ∧ ∀ j, j ≠ k → a'.value? j = a.value? j := by
  unfold Loads.fillValue
  rw [Threads.bind_iff]
  refine (hc.mergeIncoming hg ha hk).mono ?_
  rintro r p₁ h₁ ⟨made₁, hc₁, hblocks, hr⟩
  have ha₁ : available? p₁ b = some a := by rw [available?, hblocks]; exact ha
  cases r with
  | none => exact ⟨made₁, a, hc₁, ha₁, rfl, fun _ _ => rfl⟩
  | some v =>
    simp only [Threads.bind_iff, Threads.get_iff, ha₁, setAvailable, Threads.modify_iff]
    have hlookup (j : Nat) (hj : j ≠ k) : ({ a with values := (k, v) :: a.values } : Availability).value? j =
      a.value? j := by
      rw [Availability.value?, List.lookup_cons, beq_false_of_ne hj]
      rfl
    refine ⟨made₁, { a with values := (k, v) :: a.values }, hc₁.update (hc₁.table.update ha₁ ⟨rfl, rfl, rfl⟩
      (List.Subset.refl _) (List.Subset.refl _) (fun j u hu => ?_) (fun j u hu => ?_)
      (hc₁.table.outgoing b a ha₁) (hc₁.table.incoming b a ha₁)), by rw [available?_insert, if_pos rfl], rfl, hlookup⟩
    · rw [hlookup, hu]
      rintro rfl
      rw [hnone] at hu
      cases hu
    · by_cases hj : j = k
      · subst hj
        obtain rfl : v = u := by simpa [Availability.value?] using hu
        exact .inr ⟨(hr v rfl).1, hk, (hr v rfl).2⟩
      · exact .inl (hlookup j hj ▸ hu)

end Carried

/-! ## What the predecessors know -/

theorem mem_common {sets : List (List Nat)} : k ∈ common sets ↔ sets ≠ [] ∧ ∀ s ∈ sets, k ∈ s := by
  cases sets with
  | nil => simp [common]
  | cons s rest =>
    have hfold : k ∈ rest.foldl (fun s t => s.filter (· ∈ t)) s ↔ k ∈ s ∧ ∀ t ∈ rest, k ∈ t := by
      induction rest generalizing s with
      | nil => simp
      | cons t rest ih => simp [ih, and_assoc]
    simp [common, hfold]

theorem mem_incomingFrom {ps : List BlockId} (hvisited : ∀ c ∈ ps, ∃ a, available? p c = some a) :
    k ∈ incomingFrom p ps ↔ ps ≠ [] ∧ ∀ c ∈ ps, ∃ a, available? p c = some a ∧ k ∈ a.outgoing := by
  unfold incomingFrom
  rw [mem_common]
  refine and_congr (not_congr ?_) ?_
  · rw [List.filterMap_eq_nil_iff]
    refine ⟨fun hnone => List.eq_nil_iff_forall_not_mem.mpr fun c hc => ?_, fun hnil => by simp [hnil]⟩
    obtain ⟨a, ha⟩ := hvisited c hc
    simpa [ha] using hnone c hc
  · constructor
    · intro hall c hc
      obtain ⟨a, ha⟩ := hvisited c hc
      exact ⟨a, ha, hall _ (List.mem_filterMap.mpr ⟨c, hc, by rw [ha]; rfl⟩)⟩
    · intro hall s hs
      obtain ⟨c, hc, hs⟩ := List.mem_filterMap.mp hs
      obtain ⟨a, ha, hk⟩ := hall c hc
      rw [ha] at hs
      exact Option.some_inj.mp hs ▸ hk

theorem mem_outgoingFrom {size : Nat} {incoming : List Nat} :
    k ∈ a.outgoingFrom size incoming ↔ k < size ∧ (k ∈ a.generated ∨ k ∈ incoming ∧ k ∉ a.killed) := by
  simp [Availability.outgoingFrom]

theorem Table.incoming_of_missing (ht : Table g n ρ made p) (ha : available? p b = some a) (hk : k ∈ a.outgoing)
    (hnone : a.value? k = none) : k ∈ a.incoming := by
  obtain ⟨-, hgenerated | ⟨hin, -⟩⟩ := ht.outgoing b a ha k hk
  · obtain ⟨v, hv, -⟩ := (ht.scanned b a ha).generated k hgenerated
    rw [hnone] at hv
    cases hv
  · exact hin

def Availability.entered (a : Availability) (size : Nat) (incoming : List Nat) : Availability :=
  { a with incoming, outgoing := a.outgoingFrom size incoming }

namespace Carried

/-- What comes into a block is what all its predecessors know. -/
theorem mem_incoming (hg : Definite g) (hc : Carried g n ρ made p h) (hb : g.Reachable b) :
    k ∈ incomingFrom p (predsOf g b) ↔ predsOf g b ≠ [] ∧
      ∀ c ∈ predsOf g b, ∃ a, available? p c = some a ∧ k ∈ a.outgoing :=
  mem_incomingFrom fun _ hmem => hc.table.visited _ (hg.edge_of_mem_preds hb hmem).1

theorem enter (hg : Definite g) (hc : Carried g n ρ made p h) (ha : available? p b = some a) :
    a.incoming ⊆ incomingFrom p (predsOf g b) ∧ a.outgoing ⊆ a.outgoingFrom n.size (incomingFrom p (predsOf g b)) ∧
      Carried g n ρ made
        { p with blocks := p.blocks.insert b.index (a.entered n.size (incomingFrom p (predsOf g b))) } h := by
  have hin (k : Nat) := hc.mem_incoming (k := k) hg (hc.table.reachable b a ha)
  have hincoming : a.incoming ⊆ incomingFrom p (predsOf g b) := fun k hk =>
    (hin k).mpr (hc.table.incoming b a ha k hk)
  have houtgoing : a.outgoing ⊆ a.outgoingFrom n.size (incomingFrom p (predsOf g b)) := fun k hk =>
    mem_outgoingFrom.mpr ((hc.table.outgoing b a ha k hk).imp_right
    (Or.imp_right (And.imp_left fun hk => hincoming hk)))
  exact ⟨hincoming, houtgoing, hc.update (hc.table.update ha ⟨rfl, rfl, rfl⟩ hincoming houtgoing (fun _ _ h => h)
    (fun _ _ h => .inl h) (fun k hk => mem_outgoingFrom.mp hk) fun k hk => (hin k).mp hk)⟩

theorem carryInto (hg : Definite g) (hc : Carried g n ρ made p h) (b : BlockId) :
    Threads True h p (carryInto n b) fun _ p' h' => ∃ made', Carried g n ρ made' p' h' := by
  unfold Loads.carryInto
  simp only [Threads.bind_iff, Threads.get_iff, Threads.getThe_iff, Threads.read_iff]
  refine Yields.of_ok fun ps hps => ?_
  obtain rfl := preds_eq hc.image hps
  split
  · exact ⟨made, hc⟩
  case h_2 a ha =>
    rw [Threads.ite_iff]
    refine ⟨fun _ => ⟨made, hc⟩, fun _ => ?_⟩
    obtain ⟨-, -, hc₁⟩ := hc.enter hg ha
    have ha₁ : available? { p with blocks := p.blocks.insert b.index (a.entered n.size (incomingFrom p (predsOf g b))) }
        b = some (a.entered n.size (incomingFrom p (predsOf g b))) := by rw [available?_insert, if_pos rfl]
    simp only [setAvailable, Threads.bind_iff, Threads.modify_iff]
    rw [Threads.ite_iff]
    refine ⟨fun _ => ⟨made, hc₁⟩, fun _ => ?_⟩
    rw [Threads.bind_iff]
    -- Each place is filled in once, so that it has no value before its turn.
    refine (Threads.forM (fun done p' h' => ∃ made' a', Carried g n ρ made' p' h' ∧ available? p' b = some a' ∧
      a'.incoming = incomingFrom p (predsOf g b) ∧ ∀ j, j ∉ done → a'.value? j = a.value? j)
      ⟨made, _, hc₁, ha₁, rfl, fun _ _ => rfl⟩ ?_).mono ?_
    rotate_left
    · rintro _ p' h' ⟨made', -, hc', -⟩
      exact ⟨made', hc'⟩
    rintro done k rest p₂ h₂ hsplit ⟨made₂, a₂, hc₂, ha₂, hincoming, hvalues⟩
    have hmem : k ∈ (a.outgoingFrom n.size (incomingFrom p (predsOf g b))).filter fun k => (a.value? k).isNone := by
      rw [hsplit]
      simp
    obtain ⟨hout, hnone⟩ := List.mem_filter.mp hmem
    have hnone : a.value? k = none := by simpa using hnone
    have hnot : k ∉ done := by
      have hnodup : (done ++ k :: rest).Nodup := hsplit ▸ (List.nodup_range.filter _).filter _
      exact fun hk => (List.nodup_append.mp hnodup).2.2 k hk k List.mem_cons_self rfl
    have hk : k ∈ incomingFrom p (predsOf g b) := hc₁.table.incoming_of_missing ha₁ hout hnone
    refine (hc₂.fillValue hg ha₂ (hincoming ▸ hk) (hvalues k hnot ▸ hnone)).mono ?_
    rintro _ p₃ h₃ ⟨made₃, a₃, hc₃, ha₃, hincoming₃, hvalues₃⟩
    refine ⟨made₃, a₃, hc₃, ha₃, hincoming₃.trans hincoming, fun j hj => ?_⟩
    rw [List.mem_append, List.mem_singleton, not_or] at hj
    rw [hvalues₃ j hj.2, hvalues j hj.1]

theorem carryAll (hg : Definite g) (hc : Carried g n ρ made p h) (order : List BlockId) :
    Threads True h p (carryAll n order) fun _ p' h' => ∃ made', Carried g n ρ made' p' h' := by
  unfold Loads.carryAll
  refine Threads.foldlM (fun _ _ p' h' => ∃ made', Carried g n ρ made' p' h') ⟨made, hc⟩ ?_
  rintro done b rest changed p₁ h₁ - ⟨made₁, hc₁⟩
  rw [Threads.bind_iff]
  exact hc₁.carryInto hg b

theorem settle (hg : Definite g) (hc : Carried g n ρ made p h) (order : List BlockId) (rounds : Nat) :
    Threads True h p (settle n order rounds) fun _ p' h' => ∃ made', Carried g n ρ made' p' h' := by
  induction rounds generalizing made p h with
  | zero => exact Threads.throwThe_iff.mpr trivial
  | succ rounds ih =>
    unfold Loads.settle
    rw [Threads.bind_iff]
    refine (hc.carryAll hg order).mono ?_
    rintro changed p₁ h₁ ⟨made₁, hc₁⟩
    rw [Threads.ite_iff]
    exact ⟨fun _ => ih hc₁, fun _ => ⟨made₁, hc₁⟩⟩

theorem start (hg : Definite g) (hw : Walked g n g.reversePostorder [] ρ p h) : Carried g n ρ (fun _ => none) p h where
  image := hw.image
  waiting := hw.waiting
  table := .of_walked hw fun _ => ⟨hg.reachable_of_mem_order, hg.mem_order⟩
  gone := hw.gone.mono (fun _ => rfl) fun _ _ _ _ hsettles => .inl hsettles
  unmoved _ hd := nomatch hd

/-! ## Loads that give way to what flows in -/

theorem replaceLoad (hg : Definite g) (hc : Carried g n ρ made p h) (ha : available? p b = some a) (hk : k ∈ a.incoming)
    (hi : i ∈ a.exposed) (hnumber : n.ofLoad? i = some k) (hn : Numbers g n) (hsource : Source g made v)
    (hmerged : Merged g ρ made p b k v) :
    Threads True h p (replaceLoad i (ρ v)) fun _ p' h' => p'.blocks = p.blocks ∧ ∃ ρ', Carried g n ρ' made p' h' := by
  have hb := hc.table.reachable b a ha
  obtain ⟨before, after, hsplit, hspares⟩ := (hc.table.scanned b a ha).exposed i hi k hnumber
  have hmem : i ∈ g.insts b := by simp [hsplit]
  have hr := hc.image.resolves
  refine (replaceLoad_image hg hc.image hb hmem (hr.source hsource) (hr.idem v)
    fun m hm hlt => (hc.waiting.dead _ m hlt hm).1).mono ?_
  rintro _ p' h' ⟨rfl, hfixed, hundisturbed, himage, hplaced⟩
  have hmono (c : BlockId) (front : List InstId) (j : Nat) (w : InstId) (hknown : Known g n ρ made p c front j w) :
      Known g n (fun d => instead i (ρ v) (ρ d)) made { p with changed := true } c front j (instead i (ρ v) w) :=
    hknown.mono (τ := instead i (ρ v)) (fun _ _ h => h) (.of_blocks rfl)
  refine ⟨rfl, _, ⟨himage, hc.waiting.undisturbed hundisturbed rfl rfl, ?_, fun c d hd hgone => ?_, fun d hd => ?_⟩⟩
  · refine hc.table.mono (τ := instead i (ρ v)) (fun _ _ h => h) rfl fun d m hm hnone => ?_
    rw [hnone] at hm
    cases hm
  · by_cases heq : d = i
    · subst heq
      obtain rfl := hg.block_unique hd hmem
      obtain ⟨m, place, hm, hload, hplace⟩ := hn d k hnumber
      refine ⟨before, after, m, k, place, hsplit, hm, hload, hplace, ?_⟩
      have hstands : instead d (ρ v) (ρ d) = instead d (ρ v) (ρ v) := by
        rw [hfixed, instead_self, instead_new]
      rw [hstands]
      exact hmono c before k (ρ v) (.inr ⟨a, v, ha, hk, hmerged, rfl, hspares⟩)
    · rw [hplaced, Bool.and_eq_false_iff] at hgone
      obtain ⟨front, rest, m, j, place, hsplit', hm, hload, hplace, hknown⟩ :=
        hc.gone c d hd (hgone.resolve_left (by simpa using heq))
      exact ⟨front, rest, m, j, place, hsplit', hm, hload, hplace, hmono c front j _ hknown⟩
  · rw [hc.unmoved d hd, instead_of_ne]
    rintro rfl
    exact Nat.not_le.mpr (hg.lt_size hmem) ((hc.image.outline.created d).mp hd).1

theorem forwardLoad (hg : Definite g) (hn : Numbers g n) (hc : Carried g n ρ made p h) (ha : available? p b = some a)
    (hk : k ∈ a.incoming) (hi : i ∈ a.exposed) (hnumber : n.ofLoad? i = some k) :
    Threads True h p (forwardLoad b i k) fun _ p' h' => available? p' b = some a ∧
    ∃ ρ' made', Carried g n ρ' made' p' h' := by
  have hkept {p' : Progress} (hblocks : p'.blocks = p.blocks) : available? p' b = some a := by
    rw [available?, hblocks]
    exact ha
  unfold Loads.forwardLoad
  rw [Threads.bind_iff]
  refine (hc.mergeIncoming hg ha hk).mono ?_
  rintro r p₁ h₁ ⟨made₁, hc₁, hblocks₁, hr⟩
  cases r with
  | none => exact ⟨hkept hblocks₁, ρ, made₁, hc₁⟩
  | some v =>
    obtain ⟨hsource, hmerged⟩ := hr v rfl
    simp only [Threads.bind_iff, Threads.getThe_iff, Threads.read_iff]
    refine Yields.of_ok fun u hu => ?_
    obtain rfl := hc₁.image.resolves.resolve_eq hsource hu
    rw [Threads.ite_iff]
    refine ⟨fun _ => ?_, fun _ => ⟨hkept hblocks₁, ρ, made₁, hc₁⟩⟩
    refine (hc₁.replaceLoad hg (hkept hblocks₁) hk hi hnumber hn hsource hmerged).mono ?_
    rintro _ p₂ h₂ ⟨hblocks₂, ρ₂, hc₂⟩
    exact ⟨hkept (hblocks₂.trans hblocks₁), ρ₂, made₁, hc₂⟩

theorem forwardBlock (hg : Definite g) (hn : Numbers g n) (hc : Carried g n ρ made p h) (b : BlockId) :
    Threads True h p (forwardBlock n b) fun _ p' h' => ∃ ρ' made', Carried g n ρ' made' p' h' := by
  unfold Loads.forwardBlock
  rw [Threads.bind_iff, Threads.get_iff]
  split
  · exact ⟨ρ, made, hc⟩
  case h_2 a ha =>
    refine (Threads.forM_of_forall (fun p' h' => available? p' b = some a ∧ ∃ ρ' made', Carried g n ρ' made' p' h')
      ⟨ha, ρ, made, hc⟩ ?_).mono fun _ _ _ h => h.2
    rintro i hi p₁ h₁ ⟨ha₁, ρ₁, made₁, hc₁⟩
    cases hnumber : n.ofLoad? i with
    | none => exact ⟨ha₁, ρ₁, made₁, hc₁⟩
    | some k =>
      simp only
      rw [Threads.ite_iff]
      exact ⟨fun hk => hc₁.forwardLoad hg hn ha₁ hk hi hnumber, fun _ => ⟨ha₁, ρ₁, made₁, hc₁⟩⟩

end Carried

end Midend.Loads

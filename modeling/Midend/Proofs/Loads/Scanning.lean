import Midend.Proofs.Loads.Memory
import Midend.Proofs.Loads.Phis

/-! # What a block makes known

Behind a load or a store the contents of its place are known, until something may write there. The walk over a block
finds loads of places that are known and takes them out. The values that it finds are at hand at the end of the block,
and so is what stands in for them.
-/

namespace Midend.Loads

open Midend.Flow FlowGraph Ssa Execution

variable {g h h' : FlowGraph} {ρ : InstId → InstId} {made : InstId → Option Merge} {b c : BlockId}
  {d i v w : InstId} {m : Node} {p : Progress} {n : Numbering} {k : Nat} {place : Place} {front is : List InstId}
  {a : Availability} {flows : Nat → InstId → Prop}

/-! ## Numbers -/

namespace Numbering

theorem places_of_number? (h : n.number? place = some k) : n.places[k]? = some place := by
  obtain ⟨hlt, heq, -⟩ := List.findIdx?_eq_some_iff_getElem.mp h
  rw [List.getElem?_eq_getElem hlt]
  exact congrArg some (beq_iff_eq.mp heq)

theorem mem_within {r : Region} : k ∈ n.within r ↔ ∃ place, n.places[k]? = some place ∧ place.region = r := by
  unfold within
  rw [List.mem_filter, List.mem_range, beq_iff_eq, Option.map_eq_some_iff]
  refine and_iff_right_of_imp ?_
  rintro ⟨place, hplace, -⟩
  exact (List.getElem?_eq_some_iff.mp hplace).1

end Numbering

/-- A load that has a number reads the place of that number. -/
def Numbers (g : FlowGraph) (n : Numbering) : Prop :=
  ∀ i k, n.ofLoad? i = some k → ∃ m place, g.nodes[i.index]? = some m ∧ loadedPlace? m.inst = some place ∧
    n.places[k]? = some place

theorem Numbers.addLoad (hn : Numbers g n) (hm : g.nodes[i.index]? = some m)
    (hload : loadedPlace? m.inst = some place) : Numbers g (n.addLoad i place) := by
  intro j k hk
  unfold Numbering.addLoad Numbering.ofLoad? at *
  cases hnumber : n.number? place with
  | some k' =>
    rw [hnumber] at hk
    simp only [List.lookup_cons] at hk
    split at hk
    case h_1 heq =>
      obtain rfl := Option.some_inj.mp hk
      obtain rfl := beq_iff_eq.mp heq
      exact ⟨m, place, hm, hload, Numbering.places_of_number? hnumber⟩
    case h_2 => exact hn j k hk
  | none =>
    rw [hnumber] at hk
    simp only [List.lookup_cons] at hk
    split at hk
    case h_1 heq =>
      obtain rfl := Option.some_inj.mp hk
      obtain rfl := beq_iff_eq.mp heq
      exact ⟨m, place, hm, hload, by simp [Numbering.size]⟩
    case h_2 =>
      obtain ⟨l, q, hl, hq, hplace⟩ := hn j k hk
      exact ⟨l, q, hl, hq, by rw [List.getElem?_append_left (List.getElem?_eq_some_iff.mp hplace).1]; exact hplace⟩

theorem number_of_ok (hok : number g = .ok n) : Numbers g n := by
  suffices hyields : Yields True (number g) (Numbers g) from hyields.post_of_ok hok
  refine Yields.foldlM (fun _ n => Numbers g n) (fun i k hk => by cases hk) ?_
  intro done i rest n _ hn
  rw [Yields.bind_iff]
  refine Yields.of_ok fun d hd => ?_
  obtain ⟨m, hm, rfl⟩ := inst_eq_ok.mp hd
  cases hload : loadedPlace? m.inst with
  | some place => exact hn.addLoad hm hload
  | none => exact hn

/-! ## Within a block -/

/-- Behind the instruction the place is known to hold `w`. -/
def Provides (g : FlowGraph) (n : Numbering) (ρ : InstId → InstId) (i : InstId) (k : Nat) (w : InstId) : Prop :=
  ∃ m place, g.nodes[i.index]? = some m ∧ n.places[k]? = some place ∧
    (loadedPlace? m.inst = some place ∧ w = ρ i ∨
      ∃ q v, storedPlace? m.inst = some (q, some v) ∧ place.map ρ = q.map ρ ∧ w = ρ v)

def Spares (g : FlowGraph) (n : Numbering) (is : List InstId) (k : Nat) : Prop :=
  ∀ i ∈ is, ∀ m place, g.nodes[i.index]? = some m → n.places[k]? = some place → Leaves m.inst place

/-- Behind these instructions of a block the place is known to hold `w`. -/
def Settles (g : FlowGraph) (n : Numbering) (ρ : InstId → InstId) (front : List InstId) (k : Nat) (w : InstId) : Prop :=
  ∃ before i after, front = before ++ i :: after ∧ Provides g n ρ i k w ∧ Spares g n after k

theorem Settles.map {τ : InstId → InstId} (hs : Settles g n ρ front k w) :
    Settles g n (fun d => τ (ρ d)) front k (τ w) := by
  obtain ⟨before, i, after, hfront, ⟨m, place, hm, hplace, hwhat⟩, hspares⟩ := hs
  refine ⟨before, i, after, hfront, ⟨m, place, hm, hplace, ?_⟩, hspares⟩
  obtain ⟨hload, rfl⟩ | ⟨q, v, hstore, hsame, rfl⟩ := hwhat
  · exact .inl ⟨hload, rfl⟩
  · refine .inr ⟨q, v, hstore, ?_, rfl⟩
    rw [← Place.map_map, hsame, Place.map_map]

theorem Spares.concat (hs : Spares g n is k) (hi : Spares g n [i] k) : Spares g n (is ++ [i]) k := by
  intro j hj
  obtain hj | hj := List.mem_append.mp hj
  · exact hs j hj
  · exact hi j hj

theorem Settles.concat (hs : Settles g n ρ front k w) (hi : Spares g n [i] k) : Settles g n ρ (front ++ [i]) k w := by
  obtain ⟨before, j, after, rfl, hprovides, hspares⟩ := hs
  exact ⟨before, j, after ++ [i], by simp, hprovides, hspares.concat hi⟩

theorem Provides.settles (hp : Provides g n ρ i k w) : Settles g n ρ (front ++ [i]) k w :=
  ⟨front, i, [], rfl, hp, fun _ h => nomatch h⟩

/-- What was found out about a block behind the instructions `front`. Other values than those of its own loads and
stores are those that `flows` says come from elsewhere. -/
structure Scanned (g : FlowGraph) (n : Numbering) (ρ : InstId → InstId) (made : InstId → Option Merge)
    (front : List InstId) (flows : Nat → InstId → Prop) (a : Availability) : Prop where
  generated : ∀ k ∈ a.generated, ∃ v, a.value? k = some v ∧ Settles g n ρ front k (ρ v)
  killed : ∀ k ∉ a.killed, Spares g n front k
  bounded : ∀ k ∈ a.killed, k < n.size
  values : ∀ k v, a.value? k = some v → Source g made v ∧ (k ∈ a.generated ∨ k ∈ a.killed ∨ flows k v)
  exposed : ∀ i ∈ a.exposed, ∀ k, n.ofLoad? i = some k →
    ∃ before after, front = before ++ i :: after ∧ Spares g n before k

theorem value?_provide {j : Nat} {u : InstId} : (a.provide j u).value? k = if k = j then some u else a.value? k := by
  rw [Availability.value?, Availability.provide, List.lookup_cons]
  by_cases hk : k = j
  · simp [hk]
  · rw [beq_false_of_ne hk, if_neg hk]
    rfl

namespace Scanned

theorem start : Scanned g n ρ made [] flows {} where
  generated _ hk := nomatch hk
  killed _ _ _ hi := nomatch hi
  bounded _ hk := nomatch hk
  values _ _ hv := nomatch hv
  exposed _ hi := nomatch hi

/-- What was found out stays right when something stands in for more definitions and more is known to flow in. -/
theorem mono {τ : InstId → InstId} {made' : InstId → Option Merge} {flows' : Nat → InstId → Prop}
    (hs : Scanned g n ρ made front flows a) (hmade : ∀ d m, made d = some m → made' d = some m)
    (hflows : ∀ k v, flows k v → flows' k v) : Scanned g n (fun d => τ (ρ d)) made' front flows' a where
  generated k hk := by
    obtain ⟨v, hv, hsettles⟩ := hs.generated k hk
    exact ⟨v, hv, hsettles.map⟩
  killed := hs.killed
  bounded := hs.bounded
  values k v hv := by
    obtain ⟨hsource, hwhere⟩ := hs.values k v hv
    exact ⟨hsource.mono hmade, hwhere.imp_right (Or.imp_right (hflows k v))⟩
  exposed := hs.exposed

theorem exposed_concat (hs : Scanned g n ρ made front flows a) {j : InstId} (hj : j ∈ a.exposed)
    (hk : n.ofLoad? j = some k) :
    ∃ before after, front ++ [i] = before ++ j :: after ∧ Spares g n before k := by
  obtain ⟨before, after, rfl, hspares⟩ := hs.exposed j hj k hk
  exact ⟨before, after ++ [i], by simp, hspares⟩

theorem skip (hs : Scanned g n ρ made front flows a) (hi : ∀ k, Spares g n [i] k) :
    Scanned g n ρ made (front ++ [i]) flows a where
  generated k hk := by
    obtain ⟨v, hv, hsettles⟩ := hs.generated k hk
    exact ⟨v, hv, hsettles.concat (hi k)⟩
  killed k hk := (hs.killed k hk).concat (hi k)
  bounded := hs.bounded
  values := hs.values
  exposed j hj k hk := hs.exposed_concat hj hk

theorem kill (hs : Scanned g n ρ made front flows a) {ks : List Nat} (hks : ∀ k ∈ ks, k < n.size)
    (hi : ∀ k ∉ ks, Spares g n [i] k) :
    Scanned g n ρ made (front ++ [i]) flows (a.kill ks) where
  generated k hk := by
    obtain ⟨hk, hnot⟩ := List.mem_filter.mp hk
    obtain ⟨v, hv, hsettles⟩ := hs.generated k hk
    exact ⟨v, hv, hsettles.concat (hi k (by simpa using hnot))⟩
  killed k hk := by
    rw [Availability.kill, List.mem_append, not_or] at hk
    exact (hs.killed k hk.2).concat (hi k hk.1)
  bounded k hk := (List.mem_append.mp hk).elim (hks k) (hs.bounded k)
  values k v hv := by
    obtain ⟨hsource, hwhere⟩ := hs.values k v hv
    refine ⟨hsource, ?_⟩
    by_cases hk : k ∈ ks
    · exact .inr (.inl (List.mem_append_left _ hk))
    · exact hwhere.imp (fun hgen => List.mem_filter.mpr ⟨hgen, by simpa using hk⟩)
        (Or.imp_left (List.mem_append_right _))
  exposed j hj k hk := hs.exposed_concat hj hk

theorem clear (hs : Scanned g n ρ made front flows a) :
    Scanned g n ρ made (front ++ [i]) flows { a with killed := List.range n.size, generated := [] } where
  generated _ hk := nomatch hk
  killed k hk j _ m place _ hplace := absurd (List.mem_range.mpr (List.getElem?_eq_some_iff.mp hplace).1) hk
  bounded k hk := List.mem_range.mp hk
  values k v hv := by
    obtain ⟨hsource, hwhere⟩ := hs.values k v hv
    refine ⟨hsource, .inr ?_⟩
    obtain hgenerated | hkilled | hflows := hwhere
    · obtain ⟨-, -, _, _, _, -, ⟨_, _, -, hplace, -⟩, -⟩ := hs.generated k hgenerated
      exact .inl (List.mem_range.mpr (List.getElem?_eq_some_iff.mp hplace).1)
    · exact .inl (List.mem_range.mpr (hs.bounded k hkilled))
    · exact .inr hflows
  exposed j hj k hk := hs.exposed_concat hj hk

theorem provide (hs : Scanned g n ρ made front flows a) (hv : Source g made v)
    (hsettles : Settles g n ρ front k (ρ v)) : Scanned g n ρ made front flows (a.provide k v) where
  generated j hj := by
    rw [value?_provide]
    split
    case isTrue heq => exact ⟨v, rfl, heq ▸ hsettles⟩
    case isFalse heq => exact hs.generated j ((List.mem_cons.mp hj).resolve_left heq)
  killed := hs.killed
  bounded := hs.bounded
  values j u hu := by
    rw [value?_provide] at hu
    split at hu
    case isTrue heq =>
      obtain rfl := Option.some_inj.mp hu
      exact ⟨hv, .inl (heq ▸ List.mem_cons_self)⟩
    case isFalse =>
      obtain ⟨hsource, hwhere⟩ := hs.values j u hu
      exact ⟨hsource, hwhere.imp_left (List.mem_cons_of_mem k)⟩
  exposed := hs.exposed

theorem expose (hs : Scanned g n ρ made front flows a) {l : InstId} (hl : ∀ k, n.ofLoad? l = some k →
    ∃ before after, front = before ++ l :: after ∧ Spares g n before k) :
    Scanned g n ρ made front flows { a with exposed := a.exposed ++ [l] } where
  generated := hs.generated
  killed := hs.killed
  bounded := hs.bounded
  values := hs.values
  exposed j hj k hk := by
    obtain hj | hj := List.mem_append.mp hj
    · exact hs.exposed j hj k hk
    · exact List.mem_singleton.mp hj ▸ hl k (List.mem_singleton.mp hj ▸ hk)

end Scanned

/-! ## Loads that give way within their block -/

/-- Every load that was taken out read a place that was known in front of it. -/
def GoneBy (g h : FlowGraph) (n : Numbering) (ρ : InstId → InstId)
    (known : BlockId → List InstId → Nat → InstId → Prop) : Prop :=
  ∀ b d, d ∈ g.insts b → h.isPlaced d = false → ∃ front rest m k place, g.insts b = front ++ d :: rest ∧
    g.nodes[d.index]? = some m ∧ loadedPlace? m.inst = some place ∧ n.places[k]? = some place ∧ known b front k (ρ d)

theorem spares_of_leaves (hm : g.nodes[i.index]? = some m) (hleaves : ∀ place, n.places[k]? = some place →
    Leaves m.inst place) : Spares g n [i] k := by
  intro j hj l place hl hplace
  obtain rfl := List.mem_singleton.mp hj
  obtain rfl := Option.some_inj.mp (hm.symm.trans hl)
  exact hleaves place hplace

theorem spares_of_quiet (hm : g.nodes[i.index]? = some m) (hstore : storedPlace? m.inst = none)
    (heffect : m.inst.hasSideEffect = false) : Spares g n [i] k := by
  refine spares_of_leaves hm fun place _ => ?_
  unfold Leaves
  rw [hstore]
  exact heffect

theorem spares_of_store (hm : g.nodes[i.index]? = some m) {q : Place} {vo : Option InstId}
    (hstore : storedPlace? m.inst = some (q, vo)) (hk : k ∉ n.within q.region) : Spares g n [i] k := by
  refine spares_of_leaves hm fun place hplace => ?_
  unfold Leaves
  rw [hstore]
  exact fun heq => hk (Numbering.mem_within.mpr ⟨place, hplace, heq.symm⟩)

theorem Scanned.store (hs : Scanned g n ρ made front flows a) (hidem : ∀ d, ρ (ρ d) = ρ d)
    (hm : g.nodes[i.index]? = some m) {q : Place} {vo : Option InstId} (hstore : storedPlace? m.inst = some (q, vo))
    (hsource : ∀ v ∈ vo, Source g made (ρ v)) :
    Scanned g n ρ made (front ++ [i]) flows (visitStore n a (q.map ρ) (vo.map ρ)) := by
  unfold visitStore
  rw [Place.region_map]
  have hspares (k : Nat) (hk : k ∉ n.within q.region) : Spares g n [i] k := spares_of_store hm hstore hk
  split
  case h_1 hnil => exact hs.skip fun k => hspares k (by rw [hnil]; exact List.not_mem_nil)
  case h_2 =>
    have hkill := hs.kill (fun k hk => List.mem_range.mp (List.mem_filter.mp hk).1) hspares
    cases vo with
    | none => exact hkill
    | some v =>
      cases hk : n.number? (q.map ρ) with
      | none => exact hkill
      | some k =>
        refine hkill.provide (hsource v rfl)
          (Provides.settles ⟨m, q.map ρ, hm, Numbering.places_of_number? hk, .inr ?_⟩)
        refine ⟨q, v, hstore, ?_, hidem v⟩
        rw [Place.map_map]
        exact Place.map_congr fun a _ => hidem a

theorem Scanned.load (hs : Scanned g n ρ made front flows a) (hn : Numbers g n) (hi : Evaluates g i)
    (hk : n.ofLoad? i = some k) : Scanned g n ρ made (front ++ [i]) flows (a.provide k i) ∧
      (k ∉ a.killed → Scanned g n ρ made (front ++ [i]) flows
        (Availability.provide { a with exposed := a.exposed ++ [i] } k i)) := by
  obtain ⟨m, place, hm, hload, hplace⟩ := hn i k hk
  have hspares (k : Nat) : Spares g n [i] k :=
    spares_of_quiet hm (storedPlace?_of_loads hload) (hasSideEffect_of_loads hload)
  have hsettles : Settles g n ρ (front ++ [i]) k (ρ i) := Provides.settles ⟨m, place, hm, hplace, .inl ⟨hload, rfl⟩⟩
  refine ⟨(hs.skip hspares).provide (.inl hi) hsettles, fun hnot => ?_⟩
  refine ((hs.skip hspares).expose fun k' hk' => ?_).provide (.inl hi) hsettles
  obtain rfl := Option.some_inj.mp (hk.symm.trans hk')
  exact ⟨front, [], rfl, hs.killed k hnot⟩

theorem incoming_visitStore {vo : Option InstId} : (visitStore n a place vo).incoming = a.incoming := by
  unfold visitStore
  split
  · rfl
  · split <;> rfl

theorem available?_insert {a' : Availability} :
    available? { p with blocks := p.blocks.insert b.index a' } c = if c = b then some a' else available? p c := by
  unfold available?
  rw [SideTable.get?_insert]
  simp only [BlockId.index_inj]

/-- The walk has visited the blocks `done` and has come behind `front` in another one. -/
structure Walked (g : FlowGraph) (n : Numbering) (done : List BlockId) (front : List InstId) (ρ : InstId → InstId)
    (p : Progress) (h : FlowGraph) : Prop where
  image : Image g h ρ fun _ => none
  waiting : Waiting g h p
  intact : ∀ c ∉ done, ∀ i ∈ g.insts c, i ∉ front → h.isPlaced i = true
  gone : GoneBy g h n ρ fun _ => Settles g n ρ
  table : ∀ b a, available? p b = some a → b ∈ done ∧ a.incoming = [] ∧ (∀ k ∈ a.outgoing, k ∈ a.generated) ∧
    Scanned g n ρ (fun _ => none) (g.insts b) (fun _ _ => False) a
  visited : ∀ b ∈ done, ∃ a, available? p b = some a

namespace Walked

variable {done : List BlockId} {rest : List InstId}

theorem next (hw : Walked g n done front ρ p h) : Walked g n done (front ++ [i]) ρ p h :=
  { hw with intact := fun c hc j hj hnot => hw.intact c hc j hj fun hmem => hnot (List.mem_append_left _ hmem) }

section

variable (hg : Definite g) (hn : Numbers g n) (hb : g.Reachable b) (hnew : b ∉ done)
  (hsplit : g.insts b = front ++ i :: rest)

include hg hn hb hnew hsplit

theorem replaceLoad (hw : Walked g n done front ρ p h) (hs : Scanned g n ρ (fun _ => none) front (fun _ _ => False) a)
    (hk : n.ofLoad? i = some k) (hgenerated : k ∈ a.generated) (hv : a.value? k = some v) :
    Threads True h p (Loads.replaceLoad i (ρ v)) fun _ p' h' => ∃ ρ', Walked g n done (front ++ [i]) ρ' p' h' ∧
      Scanned g n ρ' (fun _ => none) (front ++ [i]) (fun _ _ => False) a := by
  have hi : i ∈ g.insts b := by rw [hsplit]; simp
  obtain ⟨hsource, -⟩ := hs.values k v hv
  have hr := hw.image.resolves
  refine (replaceLoad_image hg hw.image hb hi (hr.source hsource) (hr.idem v)
    fun m hm hlt => (hw.waiting.dead _ m hlt hm).1).mono ?_
  rintro _ p' h' ⟨rfl, hfixed, hundisturbed, himage, hplaced⟩
  obtain ⟨m, place, hm, hload, hplace⟩ := hn i k hk
  have hspares (k : Nat) : Spares g n [i] k :=
    spares_of_quiet hm (storedPlace?_of_loads hload) (hasSideEffect_of_loads hload)
  refine ⟨_, ⟨himage, hw.waiting.undisturbed hundisturbed rfl rfl, fun c hc j hj hnot => ?_, fun c d hd hgone => ?_,
    fun c a' ha' => ?_, hw.visited⟩, (hs.mono (fun _ _ h => h) fun _ _ h => h).skip hspares⟩
  · rw [hplaced, Bool.and_eq_true, decide_eq_true_eq]
    exact ⟨fun heq => hnot (by simp [heq]), hw.intact c hc j hj fun hmem => hnot (List.mem_append_left _ hmem)⟩
  · by_cases heq : d = i
    · subst heq
      obtain rfl := hg.block_unique hd hi
      obtain ⟨v', hv', hsettles⟩ := hs.generated k hgenerated
      obtain rfl := Option.some_inj.mp (hv.symm.trans hv')
      refine ⟨front, rest, m, k, place, hsplit, hm, hload, hplace, ?_⟩
      have hstands : instead d (ρ v) (ρ d) = instead d (ρ v) (ρ v) := by
        rw [hfixed, instead_self, instead_new]
      rw [hstands]
      exact hsettles.map
    · rw [hplaced, Bool.and_eq_false_iff] at hgone
      obtain ⟨front', rest', m', k', place', hsplit', hm', hload', hplace', hsettles⟩ :=
        hw.gone c d hd (hgone.resolve_left (by simpa using heq))
      exact ⟨front', rest', m', k', place', hsplit', hm', hload', hplace', hsettles.map⟩
  · obtain ⟨hc, hincoming, houtgoing, hs'⟩ := hw.table c a' ha'
    exact ⟨hc, hincoming, houtgoing, hs'.mono (fun _ _ h => h) fun _ _ h => h⟩

omit hn in
theorem inst_eq (hw : Walked g n done front ρ p h) {x : Inst} (hx : h.inst i = .ok x) :
    ∃ m, g.nodes[i.index]? = some m ∧ x = m.inst.mapArgs fun _ => ρ := by
  have hi : i ∈ g.insts b := by rw [hsplit]; simp
  have hnot : i ∉ front := by
    have hnodup : (front ++ i :: rest).Nodup := hsplit ▸ hg.located.sound.nodup b
    exact fun hmem => (List.nodup_append.mp hnodup).2.2 i hmem i List.mem_cons_self rfl
  have hcounts : Counts g h i := by
    refine .inl ⟨b, hb, ?_⟩
    rw [hw.image.outline.insts]
    exact List.mem_filter.mpr ⟨hi, hw.intact b hnew i hi hnot⟩
  obtain ⟨m, hm⟩ : ∃ m, g.nodes[i.index]? = some m := ⟨_, Array.getElem?_eq_getElem (hg.lt_size hi)⟩
  obtain ⟨m', hm', rfl⟩ := inst_eq_ok.mp hx
  exact ⟨m, hm, hw.image.wired.kept i m m' hcounts hm hm'⟩

omit hn in
theorem visitInst_cases {post : Availability → Progress → FlowGraph → Prop} (hw : Walked g n done front ρ p h)
    (hsource : ∀ k v, a.value? k = some v → Source g (fun _ => none) v)
    (hstore : ∀ m q vo, g.nodes[i.index]? = some m → storedPlace? m.inst = some (q, vo) →
      post (visitStore n a (q.map ρ) (vo.map ρ)) p h)
    (heffect : post { a with killed := List.range n.size, generated := [] } p h)
    (hquiet : ∀ m, g.nodes[i.index]? = some m → storedPlace? m.inst = none → m.inst.hasSideEffect = false → post a p h)
    (hload : ∀ k, n.ofLoad? i = some k → post (a.provide k i) p h ∧
      (k ∉ a.killed → post (Availability.provide { a with exposed := a.exposed ++ [i] } k i) p h))
    (hgives : ∀ k v, n.ofLoad? i = some k → k ∈ a.generated → a.value? k = some v →
      Threads True h p (Loads.replaceLoad i (ρ v)) fun _ p' h' => post a p' h') :
    Threads True h p (visitInst n a i) post := by
  unfold Loads.visitInst
  rw [Threads.bind_iff, Threads.getThe_iff, Threads.bind_iff, Threads.read_iff]
  refine Yields.of_ok fun d hd => ?_
  obtain ⟨m, hm, rfl⟩ := hw.inst_eq hg hb hnew hsplit hd
  rw [storedPlace?_mapArgs, Inst.hasSideEffect_mapArgs]
  cases hstored : storedPlace? m.inst with
  | some s => exact hstore m s.1 s.2 hm hstored
  | none =>
    simp only [Option.map_none]
    rw [Threads.ite_iff]
    refine ⟨fun _ => heffect, fun hnone => ?_⟩
    cases hk : n.ofLoad? i with
    | none => exact hquiet m hm hstored (by simpa using hnone)
    | some k =>
      simp only
      unfold visitLoad
      rw [Threads.ite_iff]
      refine ⟨fun hgenerated => ?_, fun _ => ?_⟩
      · cases hv : a.value? k with
        | none => exact (hload k hk).1
        | some v =>
          simp only [Threads.bind_iff, Threads.getThe_iff, Threads.read_iff]
          refine Yields.of_ok fun r hr => ?_
          rw [hw.image.resolves.resolve_eq (hsource k v hv) hr]
          exact (hgives k v hk hgenerated hv).mono fun _ _ _ h => h
      · rw [Threads.pure_iff]
        split
        · exact (hload k hk).1
        case isFalse hkilled => exact (hload k hk).2 hkilled

theorem visitInst (hw : Walked g n done front ρ p h) (hs : Scanned g n ρ (fun _ => none) front (fun _ _ => False) a) :
    Threads True h p (visitInst n a i) fun a' p' h' => (∃ ρ', Walked g n done (front ++ [i]) ρ' p' h' ∧
      Scanned g n ρ' (fun _ => none) (front ++ [i]) (fun _ _ => False) a') ∧ a'.incoming = a.incoming := by
  have hi : i ∈ g.insts b := by rw [hsplit]; simp
  have heval : Evaluates g i := .inr (.inl ⟨b, hi⟩)
  refine hw.visitInst_cases hg hb hnew hsplit (fun k v hv => (hs.values k v hv).1) (fun m q vo hm hstore => ?store)
    ⟨⟨ρ, hw.next, hs.clear⟩, rfl⟩ (fun m hm hstore heffect => ?quiet) (fun k hk => ?load)
    fun k v hk hgenerated hv => ?gives
  case store =>
    refine ⟨⟨ρ, hw.next, hs.store hw.image.resolves.idem hm hstore fun v hv => ?_⟩, incoming_visitStore⟩
    exact hw.image.resolves.source
      (.inl (hg.evaluates_input hb (.inl hi) hm ((operands_subset_of_stores hstore).2 v hv)))
  case quiet => exact ⟨⟨ρ, hw.next, hs.skip fun k => spares_of_quiet hm hstore heffect⟩, rfl⟩
  case load =>
    obtain ⟨hkept, hexposed⟩ := hs.load hn heval hk
    exact ⟨⟨⟨ρ, hw.next, hkept⟩, rfl⟩, fun hkilled => ⟨⟨ρ, hw.next, hexposed hkilled⟩, rfl⟩⟩
  case gives => exact (hw.replaceLoad hg hn hb hnew hsplit hs hk hgenerated hv).mono fun _ _ _ h => ⟨h, rfl⟩

end

theorem start (hg : Definite g) : Walked g n [] [] id {} g where
  image := .of_definite hg
  waiting := ⟨fun d n hlt hn => absurd (Array.getElem?_eq_some_iff.mp hn).1 (Nat.not_lt.mpr hlt), fun d => by simp,
    fun d => by simp, .nil⟩
  intact _ _ _ hi _ := hg.isPlaced_of_mem hi
  gone b d hd hgone := by
    rw [hg.isPlaced_of_mem hd] at hgone
    cases hgone
  table b a ha := by cases ha
  visited _ hb := nomatch hb

theorem insts_eq (hw : Walked g n done [] ρ p h) (hnew : b ∉ done) : h.insts b = g.insts b := by
  rw [hw.image.outline.insts]
  exact List.filter_eq_self.mpr fun i hi => hw.intact b hnew i hi List.not_mem_nil

end Walked

/-! ## At hand -/

variable {path : List BlockId} {rest : List InstId}

/-- However control comes to `b`, the definition is there from the start or has been evaluated once the instructions
`front` of `b` are behind. -/
def AtHand (g : FlowGraph) (b : BlockId) (front : List InstId) (d : InstId) : Prop :=
  ∀ path, g.IsPath path → path.headD graphEntry = b → d ∈ g.initialDefinitions ∨ d ∈ g.arrived path ++ front

def Remains (g h : FlowGraph) (d : InstId) : Prop := ∀ b, d ∈ g.insts b → h.isPlaced d = true

theorem AtHand.mono {front' : List InstId} (hd : AtHand g b front d) (hsub : front ⊆ front') : AtHand g b front' d := by
  intro path hpath hhead
  refine (hd path hpath hhead).imp_right fun hmem => ?_
  exact (List.mem_append.mp hmem).elim (List.mem_append_left _) fun hmem => List.mem_append_right _ (hsub hmem)

theorem AtHand.of_mem (hd : d ∈ front) : AtHand g b front d := fun _ _ _ => .inr (List.mem_append_right _ hd)

theorem AtHand.evaluates (hb : g.Reachable b) (hd : AtHand g b (g.insts b) d) : Evaluates g d := by
  obtain ⟨path, hpath, hhead⟩ := exists_path_of_reachable hb
  obtain hinitial | hmem := hd path hpath hhead
  · exact .inl hinitial
  obtain hmem | hmem := List.mem_append.mp hmem
  · obtain ⟨a, -, hmem | hmem⟩ := exists_of_mem_arrived hmem
    · exact .inr (.inl ⟨a, hmem⟩)
    · obtain ⟨-, -, hphi⟩ := live_iff.mp hmem
      exact .inr (.inr ⟨a, hphi⟩)
  · exact .inr (.inl ⟨b, hmem⟩)

section

variable (hg : Definite g)

include hg

theorem Remains.cases (hd : Remains g h d) : g.isPlaced d = false ∨ h.isPlaced d = true := by
  cases hplaced : g.isPlaced d with
  | false => exact .inl rfl
  | true =>
    obtain ⟨b, hb⟩ := Layout.isPlaced_iff.mp hplaced
    exact .inr (hd b (hg.located.mem_insts_iff.mpr hb))

theorem remains_of_not_placed (hd : g.isPlaced d = false) : Remains g h d := by
  intro b hb
  rw [hg.isPlaced_of_mem hb] at hd
  cases hd

/-- The definition is there from the start or has been evaluated, and it is left. -/
def Stays (g h : FlowGraph) (is : List InstId) (d : InstId) : Prop :=
  (d ∈ g.initialDefinitions ∨ d ∈ is) ∧ Remains g h d

omit hg in
theorem Stays.mono {is is' : List InstId} (hd : Stays g h is d) (hsub : is ⊆ is') : Stays g h is' d :=
  ⟨hd.1.imp_right fun hmem => hsub hmem, hd.2⟩

variable (hi : Image g h ρ made)

include hi

theorem Image.stays_of_not_placed {is : List InstId} (hplaced : g.isPlaced d = false)
    (hd : d ∈ g.initialDefinitions ∨ d ∈ is ∧ Evaluates g d) : Stays g h is (ρ d) := by
  have heval : Evaluates g d := hd.elim .inl And.right
  rw [hi.same hg heval (.inl hplaced)]
  exact ⟨hd.imp_right And.left, remains_of_not_placed hg hplaced⟩

theorem Image.stays_initial {is : List InstId} (hd : d ∈ g.initialDefinitions) : Stays g h is (ρ d) := by
  obtain ⟨-, -, -, hplaced⟩ := hg.initial d hd
  exact hi.stays_of_not_placed hg hplaced (.inl hd)

variable (hgone : GoneBy g h n ρ fun _ => Settles g n ρ)

include hgone

/-- Within a block: a load that was taken out gave way to an earlier load, or to what an earlier store put there. -/
theorem Image.stays_front (hpath : g.IsPath path) (harrived : ∀ d ∈ g.arrived path, Stays g h (g.arrived path) (ρ d))
    (hsplit : g.insts (path.headD graphEntry) = front ++ rest) (hd : d ∈ g.arrived path ++ front) :
    Stays g h (g.arrived path ++ front) (ρ d) := by
  -- The induction goes forwards through the block, since a load gives way to what stands in for something in front of
  -- it.
  induction front using List.reverseRecOn generalizing rest d with
  | nil =>
    rw [List.append_nil] at hd ⊢
    exact harrived d hd
  | append_singleton front i ih =>
    rw [List.append_assoc, List.singleton_append] at hsplit
    have hearlier (d : InstId) (hd : d ∈ g.arrived path ++ front) :
      Stays g h (g.arrived path ++ (front ++ [i])) (ρ d) :=
      (ih hsplit hd).mono (by rw [← List.append_assoc]; exact List.subset_append_left _ _)
    rw [← List.append_assoc] at hd
    obtain hd | hd := List.mem_append.mp hd
    · exact hearlier d hd
    obtain rfl := List.mem_singleton.mp hd
    have hmem : d ∈ g.insts (path.headD graphEntry) := by rw [hsplit]; simp
    cases hplaced : h.isPlaced d with
    | true =>
      rw [hi.same hg (.inr (.inl ⟨_, hmem⟩)) (.inr hplaced)]
      exact ⟨.inr (by simp), fun _ _ => hplaced⟩
    | false =>
      obtain ⟨front', rest', _, k, _, hsplit', -, -, -, before, j, after, rfl, ⟨m, _, hm, -, hwhat⟩, -⟩ :=
        hgone _ d hmem hplaced
      obtain ⟨rfl, rfl⟩ := hg.split_unique hsplit hsplit'
      obtain ⟨-, heq⟩ | ⟨q, w, hstore, -, heq⟩ := hwhat
      · rw [heq]
        exact hearlier j (by simp)
      · rw [heq]
        rw [List.append_assoc, List.cons_append] at hsplit
        obtain ⟨m', hm', hreads⟩ := hg.reads.inputs path hpath (hg.ne_graphEntry hmem) before j _ hsplit
        obtain rfl := Option.some_inj.mp (hm.symm.trans hm')
        obtain hinitial | hw := hreads w ((operands_subset_of_stores hstore).2 w rfl)
        · exact hi.stays_initial hg hinitial
        · exact hearlier w (by rw [← List.append_assoc]; exact List.mem_append_left _ hw)

theorem Image.stays_arrived (hpath : g.IsPath path) (hd : d ∈ g.arrived path) : Stays g h (g.arrived path) (ρ d) := by
  induction hpath generalizing d with
  | nil => cases hd
  | @cons path b hedge hpath ih =>
    rw [arrived] at hd ⊢
    obtain hd | hd := List.mem_append.mp hd
    · exact (hi.stays_front hg hgone hpath (fun d => ih) (List.append_nil _).symm hd).mono (List.subset_append_left _ _)
    · obtain ⟨-, -, hphi⟩ := live_iff.mp hd
      exact hi.stays_of_not_placed hg (hg.isPlaced_of_livePhi hphi)
        (.inr ⟨List.mem_append_right _ hd, .inr (.inr ⟨b, hphi⟩)⟩)

theorem AtHand.standIn (hsplit : g.insts b = front ++ rest) (hd : AtHand g b front d) : AtHand g b front (ρ d) := by
  rintro path hpath rfl
  obtain hinitial | hmem := hd path hpath rfl
  · exact (hi.stays_initial hg hinitial (h := h)).1
  · exact (hi.stays_front hg hgone hpath (fun _ => hi.stays_arrived hg hgone hpath) hsplit hmem).1

theorem AtHand.remains (hb : g.Reachable b) (hsplit : g.insts b = front ++ rest) (hd : AtHand g b front d) :
    Remains g h (ρ d) := by
  obtain ⟨path, hpath, rfl⟩ := exists_path_of_reachable hb
  obtain hinitial | hmem := hd path hpath rfl
  · have hstays : Stays g h [] (ρ d) := hi.stays_initial hg hinitial
    exact hstays.2
  · exact (hi.stays_front hg hgone hpath (fun _ => hi.stays_arrived hg hgone hpath) hsplit hmem).2

end

/-! ## Values found within blocks -/

/-- Only what a block makes known itself is known at its end, and all its values are at hand there. -/
def Own (g : FlowGraph) (n : Numbering) (p : Progress) : Prop :=
  ∀ b a, available? p b = some a → a.outgoing = a.outgoingFrom n.size [] ∧
    ∀ k v, a.value? k = some v → AtHand g b (g.insts b) v

theorem value?_visitStore {place : Place} {vo : Option InstId} (hv : (visitStore n a place vo).value? k = some v) :
    a.value? k = some v ∨ vo = some v := by
  unfold visitStore at hv
  split at hv
  · exact .inl hv
  split at hv
  · rw [value?_provide] at hv
    split at hv
    · exact .inr hv
    · exact .inl hv
  · exact .inl hv

theorem replaceLoad_blocks : Threads True h p (replaceLoad i v) fun _ p' _ => p'.blocks = p.blocks := by
  unfold replaceLoad
  simp only [Threads.bind_iff, Threads.lift_iff, Threads.modify_iff]
  exact Leads.of_ok fun _ _ _ => .of_ok fun _ _ _ => .of_ok fun _ _ _ => .of_ok fun _ _ _ => trivial

namespace Walked

variable {done : List BlockId}

section

variable (hg : Definite g) (hb : g.Reachable b) (hnew : b ∉ done)

include hg hb hnew

theorem visitInst_atHand (hsplit : g.insts b = front ++ i :: rest) (hw : Walked g n done front ρ p h)
    (hsource : ∀ k v, a.value? k = some v → Source g (fun _ => none) v)
    (hvalues : ∀ k v, a.value? k = some v → AtHand g b front v) :
    Threads True h p (Loads.visitInst n a i) fun a' p' _ => p'.blocks = p.blocks ∧
      ∀ k v, a'.value? k = some v → AtHand g b (front ++ [i]) v := by
  have hi : i ∈ g.insts b := by rw [hsplit]; simp
  have hkept (k : Nat) (v : InstId) (hv : a.value? k = some v) : AtHand g b (front ++ [i]) v :=
    (hvalues k v hv).mono (List.subset_append_left _ _)
  have hload (k j : Nat) (v : InstId) (hv : (a.provide k i).value? j = some v) : AtHand g b (front ++ [i]) v := by
    rw [value?_provide] at hv
    split at hv
    · exact Option.some_inj.mp hv ▸ .of_mem (by simp)
    · exact hkept j v hv
  refine hw.visitInst_cases hg hb hnew hsplit hsource (fun m q vo hm hstore => ⟨rfl, fun k v hv => ?_⟩) ⟨rfl, hkept⟩
    (fun _ _ _ _ => ⟨rfl, hkept⟩) (fun k _ => ⟨⟨rfl, hload k⟩, fun _ => ⟨rfl, hload k⟩⟩)
    fun _ _ _ _ _ => replaceLoad_blocks.mono fun _ _ _ hblocks => ⟨hblocks, hkept⟩
  obtain hv | hv := value?_visitStore hv
  · exact hkept k v hv
  -- A store reads what it stores, so that it is at hand in front of it.
  obtain ⟨w, hw', rfl⟩ := Option.map_eq_some_iff.mp hv
  have hread : AtHand g b front w := by
    rintro path hpath rfl
    obtain ⟨m', hm', hreads⟩ := hg.reads.inputs path hpath (hg.ne_graphEntry hi) front i rest hsplit
    obtain rfl := Option.some_inj.mp (hm.symm.trans hm')
    exact hreads w ((operands_subset_of_stores hstore).2 w hw')
  exact (hread.standIn hg hw.image hw.gone hsplit).mono (List.subset_append_left _ _)

omit hb hnew in
theorem close (hw : Walked g n done (g.insts b) ρ p h)
    (hs : Scanned g n ρ (fun _ => none) (g.insts b) (fun _ _ => False) a) (hnil : a.incoming = []) :
    Walked g n (done ++ [b]) [] ρ
      { p with blocks := p.blocks.insert b.index { a with outgoing := a.outgoingFrom n.size [] } } h := by
  refine ⟨hw.image, hw.waiting.undisturbed .refl rfl rfl, fun c hc i hi _ => ?_, hw.gone, fun c a' ha' => ?_,
    fun c hc => ?_⟩
  · obtain ⟨hdone, hne⟩ := not_or.mp (mt List.mem_append.mpr hc)
    refine hw.intact c hdone i hi fun hmem => hne ?_
    rw [hg.block_unique hi hmem]
    exact List.mem_singleton_self b
  · rw [available?_insert] at ha'
    split at ha'
    case isTrue heq =>
      subst heq
      obtain rfl := Option.some_inj.mp ha'
      refine ⟨by simp, hnil, fun k hk => ?_, hs.generated, hs.killed, hs.bounded, hs.values, hs.exposed⟩
      simpa using (List.mem_filter.mp hk).2
    case isFalse =>
      obtain ⟨hdone, hrest⟩ := hw.table c a' ha'
      exact ⟨List.mem_append_left _ hdone, hrest⟩
  · rw [available?_insert]
    split
    · exact ⟨_, rfl⟩
    case isFalse heq =>
      exact hw.visited c ((List.mem_append.mp hc).resolve_right fun hmem => heq (List.mem_singleton.mp hmem))

theorem visitBlock (hn : Numbers g n) (hw : Walked g n done [] ρ p h) (hown : Own g n p) :
    Threads True h p (Loads.visitBlock n b) fun _ p' h' =>
      (∃ ρ', Walked g n (done ++ [b]) [] ρ' p' h') ∧ Own g n p' := by
  unfold Loads.visitBlock setAvailable
  rw [Threads.bind_iff, Threads.getThe_iff, Threads.bind_iff, hw.insts_eq hnew]
  refine (Threads.foldlM (fun front a p' h' => ((∃ ρ', Walked g n done front ρ' p' h' ∧
    Scanned g n ρ' (fun _ => none) front (fun _ _ => False) a) ∧ a.incoming = []) ∧ p'.blocks = p.blocks ∧
      ∀ k v, a.value? k = some v → AtHand g b front v) ⟨⟨⟨ρ, hw, .start⟩, rfl⟩, rfl, nofun⟩ ?_).mono ?_
  · rintro front i rest a p₁ h₁ hsplit ⟨⟨⟨ρ₁, hw₁, hs₁⟩, hnil⟩, hblocks, hvalues⟩
    refine ((hw₁.visitInst hg hn hb hnew hsplit hs₁).and_of_ok
      (hw₁.visitInst_atHand hg hb hnew hsplit (fun k v hv => (hs₁.values k v hv).1) hvalues)).mono ?_
    rintro a' p₂ h₂ ⟨⟨hw₂, hnil₂⟩, hblocks₂, hvalues₂⟩
    exact ⟨⟨hw₂, hnil₂.trans hnil⟩, hblocks₂.trans hblocks, hvalues₂⟩
  rintro a p₁ h₁ ⟨⟨⟨ρ₁, hw₁, hs₁⟩, hnil⟩, hblocks, hvalues⟩
  rw [Threads.modify_iff]
  refine ⟨⟨ρ₁, hw₁.close hg hs₁ hnil⟩, fun c e he => ?_⟩
  rw [available?_insert] at he
  split at he
  case isTrue heq =>
    obtain rfl := Option.some_inj.mp he
    exact ⟨rfl, heq ▸ hvalues⟩
  case isFalse =>
    refine hown c e ?_
    rw [available?] at he ⊢
    rwa [← hblocks]

end

/-- In the end every block that can be reached has been visited. -/
theorem visitAll (hg : Definite g) (hn : Numbers g n) :
    Threads True g {} (g.reversePostorder.forM (Loads.visitBlock n)) fun _ p' h' =>
      (∃ ρ', Walked g n g.reversePostorder [] ρ' p' h') ∧ Own g n p' := by
  refine Threads.forM (fun done p' h' => (∃ ρ', Walked g n done [] ρ' p' h') ∧ Own g n p')
    ⟨⟨id, .start hg⟩, fun _ _ ha => nomatch ha⟩ ?_
  rintro done b rest p₁ h₁ hsplit ⟨⟨ρ₁, hw₁⟩, hown⟩
  have hb : g.Reachable b := hg.reachable_of_mem_order (by rw [hsplit]; simp)
  have hnodup : (done ++ b :: rest).Nodup := hsplit ▸ hg.nodup_order
  have hnew : b ∉ done := fun hmem => (List.nodup_append.mp hnodup).2.2 b hmem b List.mem_cons_self rfl
  exact hw₁.visitBlock hg hb hnew hn hown

end Walked

end Midend.Loads

import Midend.Proofs.Loads.Replacing

/-! # Phis that come and go

Where different values of a place meet, a dead phi is made of them. In the end it is brought to life, or it is taken
out again: because nothing reads it, or because it turned out that only one value flows into it.
-/

namespace Midend.Loads

open Midend.Flow FlowGraph Ssa Execution

variable {g h h' : FlowGraph} {ρ : InstId → InstId} {made : InstId → Option Merge} {b c : BlockId}
  {d i old new phi v : InstId} {n : Node} {p : Progress} {values : List InstId} {count : Nat} {fault : Prop}

/-! ## Making a phi -/

/-- Setting an input that exists changes the nodes of the user, of what was read and of what is read now. -/
theorem setArg_exact {user : InstId} {k : Nat}
    (hok : ¬ fault → ∃ n, h.nodes[user.index]? = some n ∧ k < n.inst.args.length) :
    Leads fault h (Edit.setArg user k d) fun _ h' => SameShape h h' ∧
      ∃ a, h'.nodes = (h.mapNodes fun j n =>
        { n with
          inst := if j = user then n.inst.setArg k d else n.inst
          inputUses := (if j = a then n.inputUses.filter (· != ⟨user, k⟩) else n.inputUses) ++
            if j = d then [⟨user, k⟩] else [] }).nodes := by
  refine (Leads.setArg hok).mono ?_
  rintro _ _ ⟨_, a, -, -, rfl⟩
  have hnodes : (h.rewired user k a d).nodes = (h.mapNodes fun j n =>
      { n with
        inst := if j = user then n.inst.setArg k d else n.inst
        inputUses := (if j = a then n.inputUses.filter (· != ⟨user, k⟩) else n.inputUses) ++
          if j = d then [⟨user, k⟩] else [] }).nodes := rfl
  exact ⟨⟨rfl, rfl, rfl, rfl, rfl, .mapNodes hnodes fun _ _ => rfl⟩, a, hnodes⟩

/-- A dead phi was added to the block, and the first `count` of its inputs are those of `values`. -/
structure Adds (h h' : FlowGraph) (b : BlockId) (values : List InstId) (count : Nat) : Prop where
  layout : h'.layout = h.layout
  blocks : h'.blocks = (h.withBlock b fun k => { k with phis := k.phis ++ [h.nextId] }).blocks
  inside : b.index < h.blocks.size
  catchEntries : h'.catchEntries = h.catchEntries
  postorder : h'.postorder = h.postorder
  initial : h'.initialDefinitions = h.initialDefinitions
  size : h'.nodes.size = h.nodes.size + 1
  phi : ∃ n as, h'.nodes[h.nextId.index]? = some n ∧ n.block = some b ∧ n.replacement = none ∧ n.inputUses = [] ∧
    n.inst = .phi none as false .tagged ∧ as.length = values.length ∧ ∀ k < count, as[k]? = values[k]?
  others : ∀ (j : InstId) n', j ≠ h.nextId → h'.nodes[j.index]? = some n' → ∃ n, h.nodes[j.index]? = some n ∧
    n'.inst = n.inst ∧ n'.block = n.block ∧ n'.replacement = n.replacement ∧
    (∀ u ∈ n.inputUses, u.user ≠ h.nextId → u ∈ n'.inputUses) ∧
    (∀ u ∈ n'.inputUses, u ∈ n.inputUses ∨ u.user = h.nextId ∧ values[u.index]? = some j) ∧
    ∀ k < count, values[k]? = some j → (⟨h.nextId, k⟩ : Use) ∈ n'.inputUses

/-- A dead phi of a block, with inputs still to be set. -/
def deadPhi (b : BlockId) (count : Nat) : Node where
  inst := .phi none (List.replicate count .unset) false .tagged
  block := some b

theorem addPhi_exact {count : Nat} (hok : ¬ fault → b.index < h.blocks.size ∧ count < Edit.inputLimit) :
    Leads fault h (Edit.addPhi b none count) fun phi h' => phi = h.nextId ∧ b.index < h.blocks.size ∧
      h' = (h.withInst (deadPhi b count)).withBlock b fun k => { k with phis := k.phis ++ [h.nextId] } := by
  unfold Edit.addPhi Edit.setBlock
  split
  case isTrue hlimit =>
    by_contra hfault
    exact Nat.not_lt.mpr hlimit (hok hfault).2
  have hid : h.nextId.index < h.nodes.size + 1 := Nat.lt_succ_self _
  rw [Leads.bind_iff, Leads.addInst_iff, Leads.bind_iff, Leads.modifyNode_iff, size_withInst]
  refine ⟨fun _ => ?_, fun hsize => absurd hid (Nat.not_lt.mpr hsize)⟩
  rw [withNode_withInst, Leads.bind_iff, Leads.modifyBlock_iff]
  refine ⟨fun hb => ⟨rfl, hb, rfl⟩, fun hb => ?_⟩
  by_contra hfault
  exact Nat.not_lt.mpr hb (hok hfault).1

theorem addPhi_of_ok {count : Nat} : Leads True h (Edit.addPhi b none count) fun phi h' => phi = h.nextId ∧
    b.index < h.blocks.size ∧
      h' = (h.withInst (deadPhi b count)).withBlock b fun k => { k with phis := k.phis ++ [h.nextId] } :=
  addPhi_exact fun hfault => absurd trivial hfault

namespace Adds

theorem start (hb : b.index < h.blocks.size) :
    Adds h ((h.withInst (deadPhi b values.length)).withBlock b fun k => { k with phis := k.phis ++ [h.nextId] }) b
      values 0 where
  layout := rfl
  blocks := rfl
  inside := hb
  catchEntries := rfl
  postorder := rfl
  initial := rfl
  size := by rw [nodes_withBlock, size_withInst]
  phi := ⟨deadPhi b values.length, _, by rw [nodes_withBlock, nodes_withInst, if_pos rfl], rfl, rfl, rfl, rfl, by simp,
    fun k hk => absurd hk (Nat.not_lt_zero k)⟩
  others j n' hne hn' := by
    rw [nodes_withBlock, nodes_withInst, if_neg hne] at hn'
    exact ⟨n', hn', rfl, rfl, rfl, fun u hu _ => hu, fun u hu => .inl hu, fun k hk => absurd hk (Nat.not_lt_zero k)⟩

theorem step {h'' : FlowGraph} (ha : Adds h h' b values count) (hv : values[count]? = some v) (hne : v ≠ h.nextId)
    (hs : SameShape h' h'') {a : InstId} (hnodes : h''.nodes = (h'.mapNodes fun j n =>
      { n with
        inst := if j = h.nextId then n.inst.setArg count v else n.inst
        inputUses := (if j = a then n.inputUses.filter (· != ⟨h.nextId, count⟩) else n.inputUses) ++
          if j = v then [⟨h.nextId, count⟩] else [] }).nodes) : Adds h h'' b values (count + 1) where
  layout := hs.layout.trans ha.layout
  blocks := hs.blocks.trans ha.blocks
  inside := ha.inside
  catchEntries := hs.catchEntries.trans ha.catchEntries
  postorder := hs.postorder.trans ha.postorder
  initial := hs.initial.trans ha.initial
  size := hs.nodes.size.trans ha.size
  phi := by
    obtain ⟨n, as, hn, hblock, hreplacement, huses, hinst, hlength, has⟩ := ha.phi
    have hn' := nodes_mapNodes (g := h') (f := fun j n =>
      { n with
        inst := if j = h.nextId then n.inst.setArg count v else n.inst
        inputUses := (if j = a then n.inputUses.filter (· != ⟨h.nextId, count⟩) else n.inputUses) ++
          if j = v then [⟨h.nextId, count⟩] else [] }) h.nextId
    rw [← hnodes, hn, Option.map_some, if_pos rfl, hinst] at hn'
    refine ⟨_, as.mapIdx fun k a => if k = count then v else a, hn', hblock, hreplacement,
      by simp [huses, Ne.symm hne], rfl, by simpa using hlength, fun k hk => ?_⟩
    rw [List.getElem?_mapIdx]
    by_cases heq : k = count
    · subst heq
      have hlt := (List.getElem?_eq_some_iff.mp hv).1
      rw [hv, List.getElem?_eq_getElem (hlength ▸ hlt)]
      simp
    · rw [← has k (by omega)]
      simp [heq]
  others j n'' hj hn'' := by
    rw [hnodes, nodes_mapNodes] at hn''
    obtain ⟨n', hn', rfl⟩ := Option.map_eq_some_iff.mp hn''
    obtain ⟨n, hn, hinst, hblock, hreplacement, hkept, honly, hlisted⟩ := ha.others j n' hj hn'
    refine ⟨n, hn, by simp [hj, hinst], hblock, hreplacement, fun u hu huser => ?_, fun u hu => ?_, fun k hk hk' => ?_⟩
    · refine List.mem_append_left _ ?_
      have hmem := hkept u hu huser
      split
      · refine List.mem_filter.mpr ⟨hmem, ?_⟩
        simp only [bne_iff_ne, ne_eq]
        rintro rfl
        exact huser rfl
      · exact hmem
    · obtain hu | hu := List.mem_append.mp hu
      · refine honly u ?_
        split at hu
        · exact (List.mem_filter.mp hu).1
        · exact hu
      · split at hu
        case isFalse => cases hu
        case isTrue hjv =>
          obtain rfl := List.mem_singleton.mp hu
          exact .inr ⟨rfl, hjv ▸ hv⟩
    · by_cases heq : k = count
      · subst heq
        refine List.mem_append_right _ ?_
        rw [if_pos (Option.some_inj.mp (hk'.symm.trans hv)), List.mem_singleton]
      · refine List.mem_append_left _ ?_
        have hmem := hlisted k (by omega) hk'
        split
        · refine List.mem_filter.mpr ⟨hmem, ?_⟩
          simpa using heq
        · exact hmem

/-! ### What the new graph has -/

theorem mem_phisOf (ha : Adds h h' b values count) : d ∈ phisOf h' c ↔ d ∈ phisOf h c ∨ c = b ∧ d = h.nextId := by
  unfold phisOf
  rw [ha.blocks, blocks_withBlock]
  cases hk : h.blocks[c.index]? with
  | none =>
    have hne : c ≠ b := by
      rintro rfl
      rw [Array.getElem?_eq_getElem ha.inside] at hk
      cases hk
    simp [hne]
  | some k =>
    by_cases hc : c = b <;> simp [hc]

theorem isPlaced_eq (ha : Adds h h' b values count) : h'.isPlaced d = h.isPlaced d := by
  unfold FlowGraph.isPlaced
  rw [ha.layout]

theorem insts_eq (ha : Adds h h' b values count) : h'.insts c = h.insts c := by
  unfold FlowGraph.insts
  rw [ha.layout]

theorem exists_other (ha : Adds h h' b values count) (hn : h.nodes[d.index]? = some n) :
    d ≠ h.nextId ∧ ∃ n', h'.nodes[d.index]? = some n' ∧ n'.inst = n.inst ∧ n'.block = n.block ∧
      n'.replacement = n.replacement ∧ (∀ u ∈ n.inputUses, u.user ≠ h.nextId → u ∈ n'.inputUses) ∧
      ∀ k < count, values[k]? = some d → (⟨h.nextId, k⟩ : Use) ∈ n'.inputUses := by
  have hlt := (Array.getElem?_eq_some_iff.mp hn).1
  have hne : d ≠ h.nextId := by
    rintro rfl
    exact Nat.lt_irrefl _ hlt
  have hlt' : d.index < h'.nodes.size := ha.size ▸ Nat.lt_succ_of_lt hlt
  obtain ⟨m, hm, hinst, hblock, hreplacement, hkept, -, hlisted⟩ := ha.others d _ hne (Array.getElem?_eq_getElem hlt')
  obtain rfl := Option.some_inj.mp (hn.symm.trans hm)
  exact ⟨hne, _, Array.getElem?_eq_getElem hlt', hinst, hblock, hreplacement, hkept, hlisted⟩

theorem replaces_iff (ha : Adds h h' b values count) {r : InstId} : Replaces h' d r ↔ Replaces h d r := by
  constructor
  · rintro ⟨n', hn', hr⟩
    by_cases hd : d = h.nextId
    · subst hd
      obtain ⟨m, as, hm, -, hnone, -⟩ := ha.phi
      obtain rfl := Option.some_inj.mp (hn'.symm.trans hm)
      rw [hnone] at hr
      cases hr
    · obtain ⟨n, hn, -, -, hsame, -⟩ := ha.others d n' hd hn'
      exact ⟨n, hn, hsame ▸ hr⟩
  · rintro ⟨n, hn, hr⟩
    obtain ⟨-, n', hn', -, -, hsame, -⟩ := ha.exists_other hn
    exact ⟨n', hn', hsame ▸ hr⟩

theorem exists_phi (ha : Adds h h' b values values.length) : ∃ n, h'.nodes[h.nextId.index]? = some n ∧
    n.block = some b ∧ n.inputUses = [] ∧ n.inst = .phi none values false .tagged := by
  obtain ⟨n, as, hn, hblock, -, hnil, hinst, hlength, has⟩ := ha.phi
  refine ⟨n, hn, hblock, hnil, ?_⟩
  rw [hinst]
  congr 1
  refine List.ext_getElem? fun j => ?_
  by_cases hj : j < values.length
  · exact has j hj
  · rw [List.getElem?_eq_none (by omega), List.getElem?_eq_none (by omega)]

section

variable (hi : Image g h ρ made) (ha : Adds h h' b values values.length) {k : Nat}

include hi ha

omit ha in
theorem ne_nextId (hd : (made d).isSome = true) : d ≠ h.nextId := by
  rintro rfl
  exact Nat.lt_irrefl _ ((hi.outline.created _).mp hd).2

theorem counts_iff {u : InstId} : Counts g h' u ↔ Counts g h u ∨ u = h.nextId := by
  unfold Counts
  simp only [ha.insts_eq]
  constructor
  · rintro (hu | hu | ⟨hsize, n', hn', hblock⟩)
    · exact .inl (.inl hu)
    · exact .inl (.inr (.inl hu))
    · by_cases heq : u = h.nextId
      · exact .inr heq
      · obtain ⟨n, hn, -, hsame, -⟩ := ha.others u n' heq hn'
        exact .inl (.inr (.inr ⟨hsize, n, hn, hsame ▸ hblock⟩))
  · rintro ((hu | hu | ⟨hsize, n, hn, hblock⟩) | rfl)
    · exact .inl hu
    · exact .inr (.inl hu)
    · obtain ⟨-, n', hn', -, hsame, -⟩ := ha.exists_other hn
      exact .inr (.inr ⟨hsize, n', hn', hsame ▸ hblock⟩)
    · obtain ⟨n, as, hn, hblock, -⟩ := ha.phi
      exact .inr (.inr ⟨hi.outline.size, n, hn, by rw [hblock]; exact Option.some_ne_none b⟩)

theorem outline : Outline g h' (Function.update made h.nextId (some ⟨b, k, values⟩)) := by
  have ho := hi.outline
  have hsize := ha.size
  exact {
    sound := ha.layout ▸ ho.sound
    size := hsize ▸ Nat.le_succ_of_le ho.size
    preds c := by
      rw [ha.blocks, blocks_withBlock, Option.map_map, ← ho.preds c]
      congr 1
      funext k
      simp only [Function.comp_apply]
      split <;> rfl
    catchEntries := ha.catchEntries.trans ho.catchEntries
    postorder := ha.postorder.trans ho.postorder
    initial := ha.initial.trans ho.initial
    insts c := by
      simp only [ha.isPlaced_eq, ha.insts_eq]
      exact ho.insts c
    gone c d hd hgone := ho.gone c d hd (ha.isPlaced_eq ▸ hgone)
    oldPhis c d hd := by
      rw [ha.mem_phisOf, ho.oldPhis c d hd]
      refine or_iff_left ?_
      rintro ⟨-, rfl⟩
      exact Nat.not_lt.mpr ho.size hd
    phisIn c d hd := by
      rw [hsize]
      obtain hd | ⟨-, rfl⟩ := ha.mem_phisOf.mp hd
      · exact Nat.lt_succ_of_lt (ho.phisIn c d hd)
      · exact Nat.lt_succ_self _
    created d := by
      by_cases hd : d = h.nextId
      · subst hd
        simpa [hsize, nextId] using ho.size
      · rw [Function.update_of_ne hd, ho.created, hsize]
        have hne : d.index ≠ h.nodes.size := fun heq => hd (InstId.index_inj.mp heq)
        omega
    newPhis d m n' hm hn' := by
      by_cases hd : d = h.nextId
      · subst hd
        rw [Function.update_self] at hm
        obtain rfl := Option.some_inj.mp hm
        obtain ⟨l, as, hl, hblock, -⟩ := ha.phi
        obtain rfl := Option.some_inj.mp (hn'.symm.trans hl)
        refine ⟨.inl hblock, fun c => ?_⟩
        rw [ha.mem_phisOf, hblock]
        have hnot : h.nextId ∉ phisOf h c := fun hmem => Nat.lt_irrefl _ (ho.phisIn c _ hmem)
        simp [hnot, eq_comm]
      · rw [Function.update_of_ne hd] at hm
        obtain ⟨n, hn, -, hsame, -⟩ := ha.others d n' hd hn'
        obtain ⟨hblock, hphis⟩ := ho.newPhis d m n hm hn
        rw [hsame]
        refine ⟨hblock, fun c => ?_⟩
        rw [ha.mem_phisOf, hphis]
        simp [hd] }

variable (hg : Definite g) (hvalues : ∀ v ∈ values, Source g made v)

include hg hvalues

theorem usesRight : UsesRight g h' := by
  have hu := hi.wired.uses
  obtain ⟨l, hl, hblock, hnil, hinst⟩ := ha.exists_phi
  have hargs : l.inst.args = values := by rw [hinst]; rfl
  refine ⟨fun u n' j d hcount hn' hj => ?_, fun d m' u n' hd hm' hmem hcount hn' => ?_, fun d m' u hd hm' hmem => ?_⟩
  · by_cases heq : u = h.nextId
    · subst heq
      obtain rfl := Option.some_inj.mp (hn'.symm.trans hl)
      rw [hargs] at hj
      have hlt := hi.lt_size hg (hvalues d (List.mem_of_getElem? hj))
      obtain ⟨-, m', hm', -, -, -, -, hlisted⟩ := ha.exists_other (Array.getElem?_eq_getElem hlt)
      exact ⟨m', hm', hlisted j (List.getElem?_eq_some_iff.mp hj).1 hj⟩
    · obtain ⟨n, hn, hsame, -⟩ := ha.others u n' heq hn'
      obtain ⟨m, hm, hmem⟩ := hu.listed u n j d (((ha.counts_iff hi).mp hcount).resolve_right heq) hn (hsame ▸ hj)
      obtain ⟨-, m', hm', -, -, -, hkept, -⟩ := ha.exists_other hm
      exact ⟨m', hm', hkept _ hmem heq⟩
  · by_cases hdphi : d = h.nextId
    · subst hdphi
      obtain rfl := Option.some_inj.mp (hm'.symm.trans hl)
      rw [hnil] at hmem
      cases hmem
    obtain ⟨m, hm, -, -, -, -, honly, -⟩ := ha.others d m' hdphi hm'
    obtain hmem | ⟨huser, hvalue⟩ := honly u hmem
    · have hbound := hu.bounded d m u hd hm hmem
      have hne : u.user ≠ h.nextId := by
        intro heq
        rw [heq] at hbound
        exact Nat.lt_irrefl _ hbound
      obtain ⟨n, hn, hsame, -⟩ := ha.others u.user n' hne hn'
      rw [hsame]
      exact hu.exact d m u n hd hm hmem (((ha.counts_iff hi).mp hcount).resolve_right hne) hn
    · rw [huser] at hn'
      obtain rfl := Option.some_inj.mp (hn'.symm.trans hl)
      rw [hargs, hvalue]
  · rw [ha.size]
    by_cases hdphi : d = h.nextId
    · subst hdphi
      obtain rfl := Option.some_inj.mp (hm'.symm.trans hl)
      rw [hnil] at hmem
      cases hmem
    obtain ⟨m, hm, -, -, -, -, honly, -⟩ := ha.others d m' hdphi hm'
    obtain hmem | ⟨huser, -⟩ := honly u hmem
    · exact Nat.lt_succ_of_lt (hu.bounded d m u hd hm hmem)
    · rw [huser]
      exact Nat.lt_succ_self _

theorem wired (hfixed : ∀ v ∈ values, ρ v = v)
    (hblocks : ∀ v ∈ values, ∀ m, h.nodes[v.index]? = some m → g.nodes.size ≤ v.index → m.block ≠ none) :
    Wired g h' ρ (Function.update made h.nextId (some ⟨b, k, values⟩)) := by
  have hw := hi.wired
  obtain ⟨l, hl, hblock, hnil, hinst⟩ := ha.exists_phi
  have hargs : l.inst.args = values := by rw [hinst]; rfl
  refine ⟨ha.usesRight hi hg hvalues, fun d n hn => ?_, fun d m n' hm hn' => ?_, fun u n n' hcount hn hn' => ?_,
    fun d m n' hm hcount hn' => ?_, fun u n' a m' hcount hn' hmem hsize hm' => ?_⟩
  · obtain ⟨m, f, hm, hshape⟩ := hw.shapes d n hn
    obtain ⟨-, m', hm', hsame, -⟩ := ha.exists_other hm
    exact ⟨m', f, hm', hsame.trans hshape⟩
  · by_cases hd : d = h.nextId
    · subst hd
      obtain rfl := Option.some_inj.mp (hn'.symm.trans hl)
      exact ⟨_, _, hinst⟩
    · rw [Function.update_of_ne hd] at hm
      obtain ⟨n, hn, hsame, -⟩ := ha.others d n' hd hn'
      rw [hsame]
      exact hw.forms d m n hm hn
  · have hne : u ≠ h.nextId := by
      rintro rfl
      exact Nat.not_lt.mpr hi.outline.size (Array.getElem?_eq_some_iff.mp hn).1
    obtain ⟨m, hm, hsame, -⟩ := ha.others u n' hne hn'
    rw [hsame]
    exact hw.kept u n m (((ha.counts_iff hi).mp hcount).resolve_right hne) hn hm
  · by_cases hd : d = h.nextId
    · subst hd
      rw [Function.update_self] at hm
      obtain rfl := Option.some_inj.mp hm
      obtain rfl := Option.some_inj.mp (hn'.symm.trans hl)
      rw [hargs, List.map_congr_left hfixed, List.map_id']
    · rw [Function.update_of_ne hd] at hm
      obtain ⟨n, hn, hsame, -⟩ := ha.others d n' hd hn'
      rw [hsame]
      exact hw.merged d m n hm (((ha.counts_iff hi).mp hcount).resolve_right hd) hn
  · by_cases ha' : a = h.nextId
    · subst ha'
      obtain rfl := Option.some_inj.mp (hm'.symm.trans hl)
      rw [hblock]
      exact Option.some_ne_none b
    obtain ⟨m, hm, -, hsame, -⟩ := ha.others a m' ha' hm'
    rw [hsame]
    by_cases hu : u = h.nextId
    · subst hu
      obtain rfl := Option.some_inj.mp (hn'.symm.trans hl)
      exact hblocks a (hargs ▸ hmem) m hm hsize
    · obtain ⟨n, hn, hsame', -⟩ := ha.others u n' hu hn'
      exact hw.reads u n a m (((ha.counts_iff hi).mp hcount).resolve_right hu) hn (hsame' ▸ hmem) hsize hm

omit hg hvalues in
theorem resolves : Resolves g h' ρ (Function.update made h.nextId (some ⟨b, k, values⟩)) := by
  have hr := hi.resolves
  have hphi : ρ h.nextId = h.nextId := hr.fresh _ (Nat.le_refl _)
  have hsource (d : InstId) (hd : Source g (Function.update made h.nextId (some ⟨b, k, values⟩)) d) :
      d = h.nextId ∨ Source g made d := by
    by_cases heq : d = h.nextId
    · exact .inl heq
    · exact .inr (hd.imp_right fun hsome => by rwa [Function.update_of_ne heq] at hsome)
  have hmono (d : InstId) (hd : Source g made d) : Source g (Function.update made h.nextId (some ⟨b, k, values⟩))
    d := by
    refine hd.imp_right fun hsome => ?_
    rwa [Function.update_of_ne (ne_nextId hi hsome)]
  have hnone (r : InstId) : ¬ Replaces h h.nextId r := by
    rintro ⟨n, hn, -⟩
    exact Nat.lt_irrefl _ (Array.getElem?_eq_some_iff.mp hn).1
  refine ⟨hr.idem, fun d hd => hr.fresh d (by have := ha.size; omega), fun d n' hd hn' hend => ?_, fun d r hd hd' => ?_,
    fun d hd => ?_, fun d r hd hstays hd' => ?_, fun d r hd hd' => ?_⟩
  · obtain rfl | hd := hsource d hd
    · exact hphi
    by_cases heq : d = h.nextId
    · exact heq ▸ hphi
    obtain ⟨n, hn, -, -, hsame, -⟩ := ha.others d n' heq hn'
    exact hr.ends d n hd hn (hsame ▸ hend)
  · rw [ha.replaces_iff] at hd'
    obtain rfl | hd := hsource d hd
    · exact absurd hd' (hnone r)
    · exact (hr.follows d r hd hd').imp_right (hmono r)
  · obtain rfl | hd := hsource d hd
    · rw [hphi]
    · exact Relation.ReflTransGen.mono (fun _ _ => ha.replaces_iff.mpr) _ _ (hr.chain d hd)
  · exact hr.stays d r hd (hstays.imp_right fun hplaced => ha.isPlaced_eq ▸ hplaced) (ha.replaces_iff.mp hd')
  · rw [ha.replaces_iff] at hd'
    by_cases heq : d = h.nextId
    · exact absurd (heq ▸ hd') (hnone r)
    · rw [Function.update_of_ne heq] at hd
      exact hr.moved d r hd hd'

end

end Adds

/-- All phis that were made are dead and listed, and none has been taken out. -/
structure Waiting (g h : FlowGraph) (p : Progress) : Prop where
  dead : ∀ (d : InstId) n, g.nodes.size ≤ d.index → h.nodes[d.index]? = some n →
    n.block ≠ none ∧ n.inst.isAlivePhi = false
  phis : ∀ d : InstId, d ∈ p.phis ↔ g.nodes.size ≤ d.index ∧ d.index < h.nodes.size
  pending : ∀ d : InstId, d ∈ p.pending ↔ g.nodes.size ≤ d.index ∧ d.index < h.nodes.size
  nodup : p.phis.Nodup

theorem Waiting.undisturbed (hp : Waiting g h p) (hu : Undisturbed g h h') {p' : Progress} (hphis : p'.phis = p.phis)
    (hpending : p'.pending = p.pending) : Waiting g h' p' where
  dead d n' hlt hn' := by
    obtain ⟨n, hn, hsame⟩ := hu.node d n' hn'
    rw [(hsame hlt).1, (hsame hlt).2]
    exact hp.dead d n hlt hn
  phis d := by rw [hphis, hu.size, hp.phis]
  pending d := by rw [hpending, hu.size, hp.pending]
  nodup := hphis ▸ hp.nodup

theorem Waiting.add (hp : Waiting g h p) (hsize : g.nodes.size ≤ h.nodes.size)
    (ha : Adds h h' b values values.length) :
    Waiting g h' { p with phis := p.phis ++ [h.nextId], pending := h.nextId :: p.pending } where
  dead d n' hlt hn' := by
    by_cases hd : d = h.nextId
    · subst hd
      obtain ⟨n, hn, hblock, -, hinst⟩ := ha.exists_phi
      obtain rfl := Option.some_inj.mp (hn'.symm.trans hn)
      rw [hblock, hinst]
      exact ⟨Option.some_ne_none b, rfl⟩
    · obtain ⟨n, hn, hinst, hblock, -⟩ := ha.others d n' hd hn'
      rw [hinst, hblock]
      exact hp.dead d n hlt hn
  phis d := by
    rw [List.mem_append, List.mem_singleton, hp.phis, ha.size, ← InstId.index_inj]
    show _ ∨ d.index = h.nodes.size ↔ _
    omega
  pending d := by
    rw [List.mem_cons, hp.pending, ha.size, ← InstId.index_inj]
    show d.index = h.nodes.size ∨ _ ↔ _
    omega
  nodup := by
    refine List.nodup_append.mpr ⟨hp.nodup, List.nodup_singleton _, fun d hd e he => ?_⟩
    rw [List.mem_singleton.mp he]
    rintro rfl
    exact Nat.lt_irrefl _ ((hp.phis _).mp hd).2

theorem mergePhi_adds (hok : ¬ fault → b.index < h.blocks.size ∧ values.length < Edit.inputLimit)
    (hvalues : ∀ v ∈ values, v ≠ h.nextId) :
    Threads fault h p (mergePhi b values) fun phi p' h' => phi = h.nextId ∧
      p' = { p with phis := p.phis ++ [phi], pending := phi :: p.pending } ∧
      ∃ h₁, Adds h h₁ b values values.length ∧ Renumbered h₁ h' := by
  unfold mergePhi
  rw [Threads.bind_iff, Threads.lift_iff]
  refine (addPhi_exact hok).mono ?_
  rintro _ h₁ ⟨rfl, hb, rfl⟩
  rw [Threads.bind_iff]
  refine (Threads.forM (fun done p' h' => p' = p ∧ Adds h h' b values done.length) ⟨rfl, Adds.start hb⟩ ?_).mono ?_
  · rintro done ⟨v, j⟩ rest _ h₂ hsplit ⟨rfl, ha⟩
    have hj : values.zipIdx[done.length]? = some (v, j) := by rw [hsplit]; simp
    rw [List.getElem?_zipIdx, Nat.zero_add] at hj
    obtain ⟨v', hv, heq⟩ := Option.map_eq_some_iff.mp hj
    obtain ⟨rfl, rfl⟩ := Prod.mk.inj heq
    rw [Threads.lift_iff]
    refine (setArg_exact fun _ => ?_).mono ?_
    · obtain ⟨n, as, hn, -, -, -, hinst, hlength, -⟩ := ha.phi
      exact ⟨n, hn, by rw [hinst]; exact hlength ▸ (List.getElem?_eq_some_iff.mp hv).1⟩
    rintro _ h₃ ⟨hs, a, hnodes⟩
    refine ⟨rfl, ?_⟩
    rw [List.length_append]
    exact ha.step hv (hvalues v' (List.mem_of_getElem? hv)) hs hnodes
  rintro _ _ h₂ ⟨rfl, ha⟩
  rw [List.length_zipIdx] at ha
  simp only [Threads.bind_iff, Threads.modify_iff, Threads.pure_iff, Threads.discard_iff, Threads.lift_iff,
    Leads.allocSsaIndex_iff]
  have hid : h.nextId.index < h₂.nodes.size := ha.size ▸ Nat.lt_succ_self _
  exact ⟨fun _ => ⟨trivial, trivial, h₂, ha, renumbered_numbered⟩, fun hsize => absurd hid (Nat.not_lt.mpr hsize)⟩

theorem mergePhi_image (hg : Definite g) (hi : Image g h ρ made) (hp : Waiting g h p)
    (hvalues : ∀ v ∈ values, Source g made v ∧ ρ v = v) {k : Nat} :
    Threads True h p (mergePhi b values) fun phi p' h' => phi = h.nextId ∧ p'.blocks = p.blocks ∧ Waiting g h' p' ∧
      Image g h' ρ (Function.update made h.nextId (some ⟨b, k, values⟩)) ∧ ∀ d, h'.isPlaced d = h.isPlaced d := by
  refine (mergePhi_adds (fun hfault => absurd trivial hfault) ?_).mono ?_
  · rintro _ hv rfl
    exact Nat.lt_irrefl _ (hi.lt_size hg (hvalues _ hv).1)
  rintro _ _ h' ⟨rfl, rfl, h₁, ha, hn⟩
  refine ⟨rfl, rfl, (hp.add hi.outline.size ha).undisturbed hn.undisturbed rfl rfl,
    Image.renumbered ⟨ha.outline hi, ?_, ha.resolves hi⟩ hn, fun d => ?_⟩
  · exact ha.wired hi hg (fun v hv => (hvalues v hv).1) (fun v hv => (hvalues v hv).2) fun v _ m hm hlt =>
      (hp.dead v m hlt hm).1
  · unfold FlowGraph.isPlaced
    rw [hn.1.layout, ha.layout]

/-! ## Taking a phi out, and bringing it to life -/

def discarded (h : FlowGraph) (phi : InstId) (n : Node) (b : BlockId) : FlowGraph :=
  ((h.withBlock b fun k => { k with phis := k.phis.filter (· != phi) }).mapNodes fun j m =>
    m.dropUses (Edit.usesBy phi n.inst.args) (Edit.usesBy phi n.envValues) j).withNode phi
      fun m => { m with block := none }

theorem removePhi_of_ok (hn : h.nodes[phi.index]? = some n) (hb : n.block = some b) :
    Leads True h (Edit.removePhi phi) fun _ h' => h' = discarded h phi n b := by
  unfold Edit.removePhi
  rw [Leads.bind_iff, Leads.get_iff, Leads.bind_iff, Leads.lift_iff]
  refine Yields.of_ok fun m hm => ?_
  obtain rfl := Option.some_inj.mp (hn.symm.trans (node_eq_ok.mp hm))
  rw [hb, Leads.bind_iff, Leads.modifyBlock_iff]
  refine ⟨fun _ => ?_, fun _ => trivial⟩
  rw [Leads.bind_iff]
  refine (Leads.dropInputUses (by rw [nodes_withBlock]; exact hn)).mono ?_
  rintro _ _ rfl
  rw [Leads.bind_iff]
  refine (Leads.dropEnvUses (n := n.dropUses (Edit.usesBy phi n.inst.args) [] phi) (by simp [hn])).mono ?_
  rintro _ _ rfl
  unfold Edit.setBlock
  rw [Leads.modifyNode_iff]
  refine ⟨fun _ => ?_, fun _ => trivial⟩
  have hdrop (j : InstId) (m : Node) : (m.dropUses (Edit.usesBy phi n.inst.args) [] j).dropUses []
      (Edit.usesBy phi n.envValues) j = m.dropUses (Edit.usesBy phi n.inst.args) (Edit.usesBy phi n.envValues) j := by
    simp [Node.dropUses]
  have hsame : (n.dropUses (Edit.usesBy phi n.inst.args) [] phi).envValues = n.envValues := rfl
  simp only [mapNodes_mapNodes, hsame, hdrop, discarded]

theorem changes_discarded : Changes h (discarded h phi n b) fun j m m' => m'.inst = m.inst ∧
    m'.replacement = m.replacement ∧ m'.block = (if j = phi then none else m.block) ∧
      m'.inputUses = m.inputUses.filter fun u => (j, u) ∉ Edit.usesBy phi n.inst.args := by
  refine Changes.mapNodes (f := fun j m => if j = phi then { m.dropUses (Edit.usesBy phi n.inst.args)
    (Edit.usesBy phi n.envValues) j with block := none } else m.dropUses (Edit.usesBy phi n.inst.args)
    (Edit.usesBy phi n.envValues) j) ?_ fun j m => ?_
  · unfold discarded
    rw [withNode, mapNodes_mapNodes]
    rfl
  · split <;> exact ⟨rfl, rfl, rfl, rfl⟩

theorem mem_phisOf_discarded : d ∈ phisOf (discarded h phi n b) c ↔ d ∈ phisOf h c ∧ (c = b → d ≠ phi) := by
  have hblocks : (discarded h phi n b).blocks =
      (h.withBlock b fun k => { k with phis := k.phis.filter (· != phi) }).blocks := rfl
  unfold phisOf
  rw [hblocks, blocks_withBlock]
  cases h.blocks[c.index]? with
  | none => simp
  | some k => by_cases hc : c = b <;> simp [hc]

section

variable (hi : Image g h ρ made) {m : Merge} (hmade : made phi = some m) (hn : h.nodes[phi.index]? = some n)
  (hb : n.block = some b)

include hi hmade hn hb

theorem Outline.discarded : Outline g (discarded h phi n b) made := by
  have ho := hi.outline
  have hsize := (ho.created phi).mp (by rw [hmade]; rfl)
  have hchange := @changes_discarded h b phi n
  exact {
    sound := ho.sound
    size := hchange.size ▸ ho.size
    preds c := by
      have hblocks : (Loads.discarded h phi n b).blocks =
          (h.withBlock b fun k => { k with phis := k.phis.filter (· != phi) }).blocks := rfl
      rw [hblocks, blocks_withBlock, Option.map_map, ← ho.preds c]
      congr 1
      funext k
      simp only [Function.comp_apply]
      split <;> rfl
    catchEntries := ho.catchEntries
    postorder := ho.postorder
    initial := ho.initial
    insts := ho.insts
    gone := ho.gone
    oldPhis c d hd := by
      rw [mem_phisOf_discarded, ho.oldPhis c d hd]
      refine and_iff_left fun _ => ?_
      rintro rfl
      exact Nat.not_lt.mpr hsize.1 hd
    phisIn c d hd := hchange.size ▸ ho.phisIn c d (mem_phisOf_discarded.mp hd).1
    created d := by rw [hchange.size, ho.created]
    newPhis d l n' hl hn' := by
      obtain ⟨o, ho', -, -, hblock, -⟩ := hchange.node d n' hn'
      obtain ⟨hwhere, hphis⟩ := ho.newPhis d l o hl ho'
      rw [hblock]
      by_cases hd : d = phi
      · subst hd
        obtain rfl := Option.some_inj.mp (hn.symm.trans ho')
        refine ⟨.inr (if_pos rfl), fun c => ?_⟩
        rw [mem_phisOf_discarded, hphis, if_pos rfl, hb]
        simp [eq_comm]
      · rw [if_neg hd]
        refine ⟨hwhere, fun c => ?_⟩
        rw [mem_phisOf_discarded, hphis]
        exact and_iff_left fun _ => hd }

omit hn hb in
theorem Wired.discarded (hg : Definite g)
    (hunread : ∀ u n, u ≠ phi → Counts g h u → h.nodes[u.index]? = some n → phi ∉ n.inst.args) :
    Wired g (discarded h phi n b) ρ made := by
  have hsize := (hi.outline.created phi).mp (by rw [hmade]; rfl)
  have hchange := @changes_discarded h b phi n
  have hnew : ¬ Evaluates g phi := fun heval => Nat.not_le.mpr (hg.lt_size_of_evaluates heval) hsize.1
  have hcounts (u : InstId) (hu : Counts g (Loads.discarded h phi n b) u) : Counts g h u ∧ u ≠ phi := by
    obtain ⟨c, hc, hu⟩ | ⟨c, hc, hu⟩ | ⟨hsize, m', hm', hblock⟩ := hu
    · refine ⟨.inl ⟨c, hc, hu⟩, ?_⟩
      rintro rfl
      have hu : u ∈ h.insts c := hu
      rw [hi.outline.insts] at hu
      exact hnew (.inr (.inl ⟨c, (List.mem_filter.mp hu).1⟩))
    · refine ⟨.inr (.inl ⟨c, hc, hu⟩), ?_⟩
      rintro rfl
      exact hnew (.inr (.inr ⟨c, hu⟩))
    · obtain ⟨o, ho, -, -, heq, -⟩ := hchange.node u m' hm'
      have hne : u ≠ phi := by
        rintro rfl
        exact hblock (heq.trans (if_pos rfl))
      rw [heq, if_neg hne] at hblock
      exact ⟨.inr (.inr ⟨hsize, o, ho, hblock⟩), hne⟩
  refine hi.wired.narrow (hchange.mono fun j o o' hc => ⟨.of_eq hc.1, ?_, ?_⟩) (fun u hu => (hcounts u hu).1)
    fun u l a o o' hu hl ha _ ho ho' hblock => ?_
  · rw [hc.2.2.2]
    exact List.filter_subset_self _
  · intro u hu hcount
    rw [hc.2.2.2]
    refine List.mem_filter.mpr ⟨hu, ?_⟩
    rw [decide_eq_true_eq]
    intro hmem
    obtain ⟨⟨a, k⟩, -, heq⟩ := List.mem_map.mp hmem
    exact (hcounts _ hcount).2 (by rw [← (Prod.mk.inj heq).2])
  · obtain ⟨l', hl', -, -, heq, -⟩ := hchange.node a o' ho'
    obtain rfl := Option.some_inj.mp (ho.symm.trans hl')
    rwa [heq, if_neg]
    rintro rfl
    exact hunread u l (hcounts u hu).2 (hcounts u hu).1 hl ha

/-- A phi that nothing reads may be taken out. -/
theorem removePhi_image (hg : Definite g)
    (hunread : ∀ u n, u ≠ phi → Counts g h u → h.nodes[u.index]? = some n → phi ∉ n.inst.args) :
    Leads True h (Edit.removePhi phi) fun _ h' => Image g h' ρ made ∧
      (∀ d, h'.isPlaced d = h.isPlaced d) ∧ Changes h h' fun j m m' => m'.inst = m.inst ∧
        m'.block = if j = phi then none else m.block := by
  refine (removePhi_of_ok hn hb).mono ?_
  rintro _ _ rfl
  have hchange := @changes_discarded h b phi n
  exact ⟨⟨.discarded hi hmade hn hb, .discarded hi hmade hg hunread,
    hi.resolves.congr (hchange.mono fun _ _ _ hc => hc.2.1) fun _ h => h⟩, fun _ => rfl,
    hchange.mono fun _ _ _ hc => ⟨hc.1, hc.2.2.1⟩⟩

end

theorem revivePhi_image (hi : Image g h ρ made) (hmade : (made phi).isSome = true) :
    Leads True h (Edit.revivePhi phi) fun _ h' => Image g h' ρ made ∧
      (∀ d, h'.isPlaced d = h.isPlaced d) ∧ Changes h h' fun j m m' => m'.block = m.block ∧
        m'.inst = if j = phi then m.inst.revive else m.inst := by
  have hsize := (hi.outline.created phi).mp hmade
  unfold Edit.revivePhi
  rw [Leads.modifyNode_iff]
  refine ⟨fun _ => ?_, fun hle => trivial⟩
  have hchange : Changes h (h.withNode phi fun n => { n with inst := n.inst.revive }) fun j m m' =>
      m'.block = m.block ∧ m'.inst = (if j = phi then m.inst.revive else m.inst) ∧ m'.inputUses = m.inputUses ∧
        m'.replacement = m.replacement := by
    refine Changes.mapNodes (f := fun j n => if j = phi then { n with inst := n.inst.revive } else n) rfl fun j n => ?_
    split <;> exact ⟨rfl, rfl, rfl, rfl⟩
  have hs : SameShape h (h.withNode phi fun n => { n with inst := n.inst.revive }) :=
    ⟨rfl, rfl, rfl, rfl, rfl, hchange.mono fun _ _ _ hc => hc.1⟩
  refine ⟨⟨hi.outline.congr hs, hi.wired.congr hs (hchange.mono fun j o o' hc => ⟨?_, hc.2.2.1⟩),
    hi.resolves.congr (hchange.mono fun _ _ _ hc => hc.2.2.2) fun _ h => h⟩, fun _ => rfl,
    hchange.mono fun _ _ _ hc => ⟨hc.1, hc.2.1⟩⟩
  by_cases hj : j = phi
  · rw [if_pos hj] at hc
    refine ⟨by rw [hc.2.1, Inst.args_revive], fun hlt => absurd hlt (Nat.not_lt.mpr (hj ▸ hsize.1)), fun as alive heq =>
      ?_⟩
    rw [hc.2.1, heq]
    exact ⟨_, rfl⟩
  · rw [if_neg hj] at hc
    exact .of_eq hc.2.1

end Midend.Loads

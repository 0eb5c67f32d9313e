import Midend.Proofs.Graph.Changes
import Midend.Proofs.Graph.Places
import Midend.Proofs.Ssa.UseLists

/-! # Use lists that are exact

A use list is exact if it has every place that counts and has the definition, and each of them once. What counts are the
inputs of placed instructions and live phis, and the environments of placed instructions. This module tells what the
changes of a graph do to that.
-/

namespace Midend

/-! ## Lists of uses -/

namespace Edit

variable {i d : InstId} {ds : List InstId} {u : Use}

theorem nodup_usesOf_usesBy : (usesOf (usesBy i ds) d).Nodup := by
  have hnodup : (usesBy i ds).Nodup := by
    refine List.Nodup.of_map (fun v => v.2.index) ?_
    have hindex : (usesBy i ds).map (fun v => v.2.index) = ds.zipIdx.map Prod.snd := by
      rw [usesBy, List.map_map]
      rfl
    rw [hindex, List.zipIdx_map_snd]
    exact List.nodup_range'
  refine hnodup.filterMap ?_
  rintro ⟨a, u⟩ ⟨a', u'⟩ v hv hv'
  simp only [Option.mem_def, Option.ite_none_right_eq_some, Option.some_inj] at hv hv'
  obtain ⟨rfl, rfl⟩ := hv
  obtain ⟨rfl, rfl⟩ := hv'
  rfl

theorem count_usesOf (u : Use) :
    (usesOf (usesBy i ds) d).count u = if u.user = i ∧ ds[u.index]? = some d then 1 else 0 := by
  split
  case isTrue hu => exact List.count_eq_one_of_mem nodup_usesOf_usesBy (mem_usesOf.mpr (mem_usesBy.mpr hu))
  case isFalse hu => exact List.count_eq_zero_of_not_mem fun hmem => hu (mem_usesBy.mp (mem_usesOf.mp hmem))

end Edit

/-- The lists have exactly the uses that count, each of them once, with the definition that is there. -/
def Lists (uses : InstId → Option (List Use)) (counts : Use → Prop) (value : Use → Option InstId) : Prop :=
  ∀ d us, uses d = some us → us.Nodup ∧ ∀ u, u ∈ us ↔ counts u ∧ value u = some d

namespace Lists

open Edit (usesOf usesBy mem_usesOf mem_usesBy nodup_usesOf_usesBy)

variable {uses uses' : InstId → Option (List Use)} {counts counts' : Use → Prop} {value value' : Use → Option InstId}
  {i a d old new : InstId} {u₀ : Use} {ds : List InstId} {us : List Use}

theorem congr (h : Lists uses counts value) (huses : ∀ d, uses' d = uses d) (hcounts : ∀ u, counts' u ↔ counts u)
    (hvalue : ∀ u, counts u → value' u = value u) : Lists uses' counts' value' := by
  intro d us hus
  obtain ⟨hnodup, hmem⟩ := h d us (huses d ▸ hus)
  refine ⟨hnodup, fun u => (hmem u).trans ?_⟩
  rw [hcounts]
  exact and_congr_right fun hu => by rw [hvalue u hu]

theorem recount (h : Lists uses counts value) (hcounts : ∀ u d, value u = some d → (counts' u ↔ counts u)) :
    Lists uses counts' value := by
  intro d us hus
  obtain ⟨hnodup, hmem⟩ := h d us hus
  exact ⟨hnodup, fun u => (hmem u).trans (and_congr_left fun hd => (hcounts u d hd).symm)⟩

theorem extend (h : Lists uses counts value) (huses : ∀ j, uses' j = if j = d then some [] else uses j)
    (hvalue : ∀ u, counts u → value' u = value u) (hunread : ∀ u, counts u → value u ≠ some d) :
    Lists uses' counts value' := by
  intro j us hus
  rw [huses] at hus
  split at hus
  case isTrue hj =>
    obtain rfl := Option.some_inj.mp hus
    refine ⟨List.nodup_nil, fun u => iff_of_false List.not_mem_nil fun ⟨hu, hvalue'⟩ => hunread u hu ?_⟩
    rw [← hvalue u hu, hvalue', hj]
  case isFalse =>
    obtain ⟨hnodup, hmem⟩ := h j us hus
    exact ⟨hnodup, fun u => (hmem u).trans (and_congr_right fun hu => by rw [hvalue u hu])⟩

theorem iff_count [DecidablePred counts] : Lists uses counts value ↔
    ∀ d us, uses d = some us → ∀ u, us.count u = if counts u ∧ value u = some d then 1 else 0 := by
  constructor
  · intro h d us hus u
    obtain ⟨hnodup, hmem⟩ := h d us hus
    split
    case isTrue hu => exact List.count_eq_one_of_mem hnodup ((hmem u).mpr hu)
    case isFalse hu => exact List.count_eq_zero_of_not_mem fun hmem' => hu ((hmem u).mp hmem')
  · intro h d us hus
    refine ⟨List.nodup_iff_count_le_one.mpr fun u => ?_, fun u => ?_⟩
    · rw [h d us hus]
      split <;> omega
    · rw [← List.count_pos_iff, h d us hus]
      split
      case isTrue hu => exact iff_of_true Nat.one_pos hu
      case isFalse hu => exact iff_of_false (Nat.lt_irrefl 0) hu

theorem add (h : Lists uses counts value) (hnew : ∀ u, u.user = i → ¬ counts u)
    (hds : ∀ u, u.user = i → value u = ds[u.index]?)
    (huses : ∀ d, uses' d = (uses d).map (· ++ usesOf (usesBy i ds) d)) :
    Lists uses' (fun u => counts u ∨ u.user = i) value := by
  intro d us' hus'
  rw [huses] at hus'
  obtain ⟨us, hus, rfl⟩ := Option.map_eq_some_iff.mp hus'
  obtain ⟨hnodup, hmem⟩ := h d us hus
  refine ⟨List.nodup_append.mpr ⟨hnodup, nodup_usesOf_usesBy, ?_⟩, fun u => ?_⟩
  · rintro u hu _ hu' rfl
    rw [mem_usesOf, mem_usesBy] at hu'
    exact hnew u hu'.1 ((hmem u).mp hu).1
  · rw [List.mem_append, hmem, mem_usesOf, mem_usesBy, or_and_right]
    refine or_congr_right (and_congr_right fun hu => ?_)
    rw [hds u hu]

theorem drop (h : Lists uses counts value) (hds : ∀ u, u.user = i → value u = ds[u.index]?)
    (huses : ∀ d, uses' d = (uses d).map (·.filter fun u => (d, u) ∉ usesBy i ds)) :
    Lists uses' (fun u => counts u ∧ u.user ≠ i) value := by
  intro d us' hus'
  rw [huses] at hus'
  obtain ⟨us, hus, rfl⟩ := Option.map_eq_some_iff.mp hus'
  obtain ⟨hnodup, hmem⟩ := h d us hus
  refine ⟨hnodup.filter _, fun u => ?_⟩
  rw [List.mem_filter, hmem, decide_eq_true_iff, mem_usesBy, not_and]
  constructor
  · rintro ⟨⟨hu, hd⟩, hnot⟩
    exact ⟨⟨hu, fun hi => hnot hi (hds u hi ▸ hd)⟩, hd⟩
  · rintro ⟨⟨hu, hi⟩, hd⟩
    exact ⟨⟨hu, hd⟩, fun hi' => absurd hi' hi⟩

theorem set (h : Lists uses counts value) (ha : value u₀ = some a)
    (huses : ∀ j, uses' j = (uses j).map fun us => (if j = a then us.filter (· != u₀) else us) ++ if j =
    d then [u₀] else []) (hset : value' u₀ = some d) (hvalue : ∀ u, u ≠ u₀ → value' u = value u) :
    Lists uses' (fun u => counts u ∨ u = u₀) value' := by
  intro j us' hus'
  rw [huses] at hus'
  obtain ⟨us, hus, rfl⟩ := Option.map_eq_some_iff.mp hus'
  obtain ⟨hnodup, hmem⟩ := h j us hus
  -- nothing is left of the use before it is added
  have hold : ∀ u, u ∈ (if j = a then us.filter (· != u₀) else us) ↔ (counts u ∧ value u = some j) ∧ u ≠ u₀ := by
    intro u
    by_cases hj : j = a
    · rw [if_pos hj, List.mem_filter, hmem, bne_iff_ne]
    · rw [if_neg hj, hmem]
      refine (and_iff_left_of_imp ?_).symm
      rintro ⟨-, hu⟩ rfl
      exact hj (Option.some_inj.mp (hu.symm.trans ha))
  constructor
  · refine List.nodup_append.mpr ⟨?_, by split <;> simp, ?_⟩
    · split
      · exact hnodup.filter _
      · exact hnodup
    · rintro u hu _ hu' rfl
      refine ((hold u).mp hu).2 ?_
      split at hu'
      · simpa using hu'
      · cases hu'
  · intro u
    rw [List.mem_append, hold]
    by_cases hu : u = u₀
    · subst hu
      by_cases hj : j = d
      · simp [hset, hj]
      · simp [hset, hj, Ne.symm hj]
    · have hlast : u ∉ if j = d then [u₀] else [] := by split <;> simp [hu]
      simp [hu, hlast, hvalue u hu]

theorem redirect (h : Lists uses counts value) (hne : old ≠ new) (hus : uses old = some us)
    (hold : uses' old = some []) (hnew : uses' new = (uses new).map (· ++ us))
    (huses : ∀ j, j ≠ old → j ≠ new → uses' j = uses j)
    (hvalue : ∀ u, value' u = (value u).map fun a => if u ∈ us then new else a) : Lists uses' counts value' := by
  obtain ⟨hnodup, hmem⟩ := h old us hus
  have hvalue_mem {u : Use} (hu : u ∈ us) : value' u = some new := by
    rw [hvalue, ((hmem u).mp hu).2, Option.map_some, if_pos hu]
  have hvalue_notMem {u : Use} (hu : u ∉ us) : value' u = value u := by
    rw [hvalue]
    simp [hu]
  intro j us' hus'
  by_cases hjold : j = old
  · subst hjold
    obtain rfl := Option.some_inj.mp (hold.symm.trans hus')
    refine ⟨List.nodup_nil, fun u => ⟨fun hu => absurd hu (List.not_mem_nil), ?_⟩⟩
    rintro ⟨hu, hvalue'⟩
    by_cases humem : u ∈ us
    · rw [hvalue_mem humem] at hvalue'
      exact absurd (Option.some_inj.mp hvalue').symm hne
    · rw [hvalue_notMem humem] at hvalue'
      exact absurd ((hmem u).mpr ⟨hu, hvalue'⟩) humem
  by_cases hjnew : j = new
  · subst hjnew
    rw [hnew] at hus'
    obtain ⟨us₁, hus₁, rfl⟩ := Option.map_eq_some_iff.mp hus'
    obtain ⟨hnodup₁, hmem₁⟩ := h j us₁ hus₁
    have hapart : ∀ u, u ∈ us₁ → u ∉ us := fun u hu hu' =>
      hne (Option.some_inj.mp (((hmem u).mp hu').2.symm.trans ((hmem₁ u).mp hu).2))
    refine ⟨List.nodup_append.mpr ⟨hnodup₁, hnodup, fun u hu v hv huv => hapart u hu (huv ▸ hv)⟩, fun u => ?_⟩
    rw [List.mem_append]
    by_cases humem : u ∈ us
    · simp [humem, hvalue_mem humem, ((hmem u).mp humem).1]
    · simp [humem, hvalue_notMem humem, hmem₁]
  · rw [huses j hjold hjnew] at hus'
    obtain ⟨hnodup₁, hmem₁⟩ := h j us' hus'
    refine ⟨hnodup₁, fun u => (hmem₁ u).trans (and_congr_right fun _ => ?_)⟩
    by_cases humem : u ∈ us
    · rw [hvalue_mem humem, ((hmem u).mp humem).2]
      simp [Ne.symm hjold, Ne.symm hjnew]
    · rw [hvalue_notMem humem]

end Lists

namespace FlowGraph

variable {g g' : FlowGraph} {f : InstId → Node → Node} {i j : InstId} {b c : BlockId} {u : Use} {n : Node}

/-! ## What a graph shows of its uses -/

def blockOf (g : FlowGraph) (i : InstId) : Option BlockId := (g.nodes[i.index]?).bind Node.block

def inputAt (g : FlowGraph) (u : Use) : Option InstId := Ssa.inputOf g u.user u.index

def resumeAt (g : FlowGraph) (u : Use) : Option InstId := Ssa.resumeOf g u.user u.index

def inputUses? (g : FlowGraph) (d : InstId) : Option (List Use) := (g.nodes[d.index]?).map Node.inputUses

def envUses? (g : FlowGraph) (d : InstId) : Option (List Use) := (g.nodes[d.index]?).map Node.envUses

def OnList (g : FlowGraph) (i : InstId) : Prop := ∃ b, g.layout.home? i = some b

/-- The instruction is on the list of a block, or a live phi of one. -/
def Present (g : FlowGraph) (i : InstId) : Prop := g.OnList i ∨ ((∃ b, g.HasPhi b i) ∧ Ssa.aliveIn g i = true)

/-- Instructions on lists and phis of blocks know their block, and none is both. -/
structure Housed (g : FlowGraph) : Prop where
  sound : g.layout.Sound
  placed : ∀ i b, g.layout.home? i = some b → g.blockOf i = some b
  phis : ∀ b i, g.HasPhi b i → g.layout.home? i = none ∧ g.blockOf i = some b

/-- The use lists have the inputs of present instructions and the environments of instructions on lists, each once. -/
structure Exact (g : FlowGraph) : Prop where
  housed : g.Housed
  inputs : Lists g.inputUses? (fun u => g.Present u.user) g.inputAt
  envs : Lists g.envUses? (fun u => g.OnList u.user) g.resumeAt

/-- The nodes of `g'` are those of `g` with `f` applied to each. -/
def Maps (g g' : FlowGraph) (f : InstId → Node → Node) : Prop :=
  ∀ j : InstId, g'.nodes[j.index]? = (g.nodes[j.index]?).map (f j)

namespace Maps

theorem inputAt (h : Maps g g' f) (hf : ∀ j n, (f j n).inst.args = n.inst.args) (u : Use) :
    g'.inputAt u = g.inputAt u := by
  unfold FlowGraph.inputAt Ssa.inputOf
  rw [h]
  cases g.nodes[u.user.index]? <;> simp [hf]

theorem resumeAt (h : Maps g g' f) (hf : ∀ n, (f u.user n).envValues = n.envValues) : g'.resumeAt u = g.resumeAt u := by
  unfold FlowGraph.resumeAt Ssa.resumeOf
  rw [h]
  cases g.nodes[u.user.index]? <;> simp [hf]

theorem aliveIn (h : Maps g g' f) (hf : ∀ j n, (f j n).inst.isAlivePhi = n.inst.isAlivePhi) (i : InstId) :
    Ssa.aliveIn g' i = Ssa.aliveIn g i := by
  unfold Ssa.aliveIn
  rw [h]
  cases g.nodes[i.index]? <;> simp [hf]

theorem blockOf (h : Maps g g' f) (hf : ∀ n, (f i n).block = n.block) : g'.blockOf i = g.blockOf i := by
  unfold FlowGraph.blockOf
  rw [h]
  cases g.nodes[i.index]? <;> simp [hf]

theorem inputUses? (h : Maps g g' f) {d : InstId} {t : List Use → List Use}
    (hf : ∀ n, (f d n).inputUses = t n.inputUses) : g'.inputUses? d = (g.inputUses? d).map t := by
  unfold FlowGraph.inputUses?
  rw [h]
  cases g.nodes[d.index]? <;> simp [hf]

theorem inputUses?_eq (h : Maps g g' f) {d : InstId} (hf : ∀ n, (f d n).inputUses = n.inputUses) :
    g'.inputUses? d = g.inputUses? d := by
  rw [h.inputUses? (t := id) hf, Option.map_id, id]

theorem envUses? (h : Maps g g' f) {d : InstId} {t : List Use → List Use}
    (hf : ∀ n, (f d n).envUses = t n.envUses) : g'.envUses? d = (g.envUses? d).map t := by
  unfold FlowGraph.envUses?
  rw [h]
  cases g.nodes[d.index]? <;> simp [hf]

theorem envUses?_eq (h : Maps g g' f) {d : InstId} (hf : ∀ n, (f d n).envUses = n.envUses) :
    g'.envUses? d = g.envUses? d := by
  rw [h.envUses? (t := id) hf, Option.map_id, id]

end Maps

theorem blockOf_of_node (hn : g.nodes[i.index]? = some n) : g.blockOf i = n.block := by
  unfold blockOf
  rw [hn, Option.bind_some]

theorem inputAt_of_node (hn : g.nodes[i.index]? = some n) (hu : u.user = i) : g.inputAt u = n.inst.args[u.index]? := by
  unfold inputAt Ssa.inputOf
  rw [hu, hn, Option.bind_some]

theorem resumeAt_of_node (hn : g.nodes[i.index]? = some n) (hu : u.user = i) :
    g.resumeAt u = n.envValues[u.index]? := by
  unfold resumeAt Ssa.resumeOf
  rw [hu, hn, Option.bind_some]

@[simp] theorem blocks_withLayout (l : Layout) : (g.withLayout l).blocks = g.blocks := rfl

theorem hasPhi_of_blocks (h : g'.blocks = g.blocks) : g'.HasPhi b i ↔ g.HasPhi b i := by
  unfold HasPhi
  rw [h]

/-! ## Places -/

namespace Housed

theorem congr (h : g.Housed) (hlayout : g'.layout = g.layout) (hblock : ∀ j, g'.blockOf j = g.blockOf j)
    (hphis : ∀ c j, g'.HasPhi c j ↔ g.HasPhi c j) : g'.Housed where
  sound := hlayout ▸ h.sound
  placed j c hc := by
    rw [hlayout] at hc
    rw [hblock]
    exact h.placed j c hc
  phis c j hj := by
    rw [hlayout, hblock]
    exact h.phis c j ((hphis c j).mp hj)

theorem place (h : g.Housed) (hfree : g.layout.home? i = none) (hphi : ∀ c, ¬ g.HasPhi c i) {is : List InstId}
    (his : is.Perm (i :: g.layout.insts b)) (hlayout : g'.layout = g.layout.place i b is)
    (hhere : g'.blockOf i = some b) (hblock : ∀ j, j ≠ i → g'.blockOf j = g.blockOf j)
    (hphis : ∀ c j, g'.HasPhi c j ↔ g.HasPhi c j) : g'.Housed where
  sound := hlayout ▸ h.sound.place hfree his
  placed j c hc := by
    rw [hlayout, Layout.home?_place] at hc
    by_cases hj : j = i
    · rw [if_pos hj] at hc
      rw [hj, hhere, hc]
    · rw [if_neg hj] at hc
      rw [hblock j hj]
      exact h.placed j c hc
  phis c j hj := by
    rw [hphis] at hj
    have hne : j ≠ i := fun heq => hphi c (heq ▸ hj)
    rw [hlayout, Layout.home?_place, if_neg hne, hblock j hne]
    exact h.phis c j hj

theorem unplace (h : g.Housed) (hb : g.layout.home? i = some b) (hlayout : g'.layout = g.layout.unplace i b)
    (hblock : ∀ j, j ≠ i → g'.blockOf j = g.blockOf j) (hphis : ∀ c j, g'.HasPhi c j ↔ g.HasPhi c j) : g'.Housed where
  sound := hlayout ▸ h.sound.unplace hb
  placed j c hc := by
    rw [hlayout, Layout.home?_unplace] at hc
    split at hc
    case isTrue => cases hc
    case isFalse hj =>
      rw [hblock j hj]
      exact h.placed j c hc
  phis c j hj := by
    rw [hphis] at hj
    have hne : j ≠ i := by
      rintro rfl
      rw [(h.phis c j hj).1] at hb
      cases hb
    rw [hlayout, Layout.home?_unplace, if_neg hne, hblock j hne]
    exact h.phis c j hj

theorem move (h : g.Housed) (hc : g.layout.home? i = some c) {is : List InstId}
    (his : is.Perm (i :: (g.layout.unplace i c).insts b)) (hlayout : g'.layout = (g.layout.unplace i c).place i b is)
    (hhere : g'.blockOf i = some b) (hblock : ∀ j, j ≠ i → g'.blockOf j = g.blockOf j)
    (hphis : ∀ c j, g'.HasPhi c j ↔ g.HasPhi c j) : g'.Housed := by
  -- in between, the instruction is nowhere
  generalize hg₁ : g.withLayout (g.layout.unplace i c) = g₁
  have hlayout₁ : g₁.layout = g.layout.unplace i c := by rw [← hg₁, layout_withLayout]
  have hblock₁ (j : InstId) : g₁.blockOf j = g.blockOf j := by
    unfold blockOf
    rw [← hg₁, nodes_withLayout]
  have hphis₁ (d : BlockId) (j : InstId) : g₁.HasPhi d j ↔ g.HasPhi d j := by
    unfold HasPhi
    rw [← hg₁]
    rfl
  have hout : g₁.Housed := h.unplace hc hlayout₁ (fun j _ => hblock₁ j) hphis₁
  rw [← hlayout₁] at his hlayout
  refine hout.place ?_ (fun d hd => ?_) his hlayout hhere (fun j hj => (hblock j hj).trans (hblock₁ j).symm)
    fun d j => (hphis d j).trans (hphis₁ d j).symm
  · rw [hlayout₁, Layout.home?_unplace, if_pos rfl]
  · rw [(h.phis d i ((hphis₁ d i).mp hd)).1] at hc
    cases hc

theorem moveAll (h : g.Housed) (hlayout : g'.layout = g.layout.moveAll b c)
    (hblock : ∀ j, g'.blockOf j = if j ∈ g.layout.insts b then some c else g.blockOf j)
    (hphis : ∀ c j, g'.HasPhi c j ↔ g.HasPhi c j) : g'.Housed where
  sound := hlayout ▸ h.sound.moveAll
  placed j d hd := by
    rw [hlayout, h.sound.home?_moveAll] at hd
    rw [hblock]
    split
    case isTrue hj => rwa [if_pos hj] at hd
    case isFalse hj =>
      rw [if_neg hj] at hd
      exact h.placed j d hd
  phis d j hj := by
    rw [hphis] at hj
    obtain ⟨hfree, hd⟩ := h.phis d j hj
    have hnot : j ∉ g.layout.insts b := fun hmem => by
      rw [h.sound.mem_iff.mp hmem] at hfree
      cases hfree
    rw [hlayout, h.sound.home?_moveAll, if_neg hnot, hblock, if_neg hnot]
    exact ⟨hfree, hd⟩

theorem forget (h : g.Housed) (hlayout : g'.layout = g.layout) (hfree : g.layout.home? i = none)
    (hblock : ∀ j, j ≠ i → g'.blockOf j = g.blockOf j) (hphis : ∀ c j, g'.HasPhi c j → g.HasPhi c j ∧ j ≠ i) :
    g'.Housed where
  sound := hlayout ▸ h.sound
  placed j c hc := by
    rw [hlayout] at hc
    have hne : j ≠ i := by
      rintro rfl
      rw [hfree] at hc
      cases hc
    rw [hblock j hne]
    exact h.placed j c hc
  phis c j hj := by
    obtain ⟨hphi, hne⟩ := hphis c j hj
    rw [hlayout, hblock j hne]
    exact h.phis c j hphi

end Housed

/-! ## Changes that keep the use lists exact -/

open Edit (usesBy usesOf)

theorem present_iff_of_views {h : FlowGraph} (hlist : ∀ j, h.OnList j ↔ g.OnList j)
    (hphis : ∀ c j, h.HasPhi c j ↔ g.HasPhi c j) (halive : ∀ j, Ssa.aliveIn h j = Ssa.aliveIn g j) (j : InstId) :
    h.Present j ↔ g.Present j := by
  unfold Present
  rw [hlist, halive]
  simp only [hphis]

/-- The graph with `i`, of which `n` is known, on the list of `b`. -/
def settled (g : FlowGraph) (i : InstId) (n : Node) (b : BlockId) (is : List InstId) : FlowGraph :=
  ((g.withLayout (g.layout.place i b is)).withNode i fun m => { m with block := some b }).mapNodes
    fun j m => m.addUses (usesBy i n.inst.args) (usesBy i n.envValues) j

section

variable {is : List InstId}

theorem maps_settled : Maps g (g.settled i n b is) fun j m =>
    (if j = i then { m with block := some b } else m).addUses (usesBy i n.inst.args) (usesBy i n.envValues) j := by
  intro j
  unfold settled
  rw [nodes_mapNodes, nodes_withNode, nodes_withLayout, Option.map_map]
  rfl

theorem inst_settled (j : InstId) (m : Node) : ((if j = i then { m with block := some b } else m).addUses
    (usesBy i n.inst.args) (usesBy i n.envValues) j).inst = m.inst := by
  split <;> rfl

theorem layout_settled : (g.settled i n b is).layout = g.layout.place i b is := by
  unfold settled
  rw [layout_mapNodes, layout_withNode, layout_withLayout]

theorem hasPhi_settled : (g.settled i n b is).HasPhi c j ↔ g.HasPhi c j := by
  refine hasPhi_of_blocks ?_
  unfold settled
  rw [blocks_mapNodes, blocks_withNode, blocks_withLayout]

theorem onList_settled : (g.settled i n b is).OnList j ↔ g.OnList j ∨ j = i := by
  unfold OnList
  rw [layout_settled, Layout.home?_place]
  by_cases hj : j = i
  · simp [hj]
  · simp [hj]

theorem present_settled : (g.settled i n b is).Present j ↔ g.Present j ∨ j = i := by
  unfold Present
  rw [onList_settled, maps_settled.aliveIn fun j n => by rw [inst_settled], or_right_comm]
  simp only [hasPhi_settled]

theorem inputUses?_settled (d : InstId) : (g.settled i n b is).inputUses? d =
    (g.inputUses? d).map (· ++ usesOf (usesBy i n.inst.args) d) :=
  maps_settled.inputUses? fun m => by split <;> rfl

theorem envUses?_settled (d : InstId) : (g.settled i n b is).envUses? d =
    (g.envUses? d).map (· ++ usesOf (usesBy i n.envValues) d) :=
  maps_settled.envUses? fun m => by split <;> rfl

end

def resuming (g : FlowGraph) (i : InstId) (n : Node) (e : Option Environment) : FlowGraph :=
  let h := (g.mapNodes fun j m => m.dropUses [] (usesBy i n.envValues) j).withNode i fun m => { m with env := e }
  if n.block.isSome then h.mapNodes fun j m => m.addUses [] (usesBy i ((e.map Environment.values).getD [])) j else h

namespace Exact

theorem relocate (h : g.Exact) (hhoused : g'.Housed) (hmaps : Maps g g' f)
    (hf : ∀ j n, (f j n).inst = n.inst ∧ (f j n).env = n.env ∧ (f j n).inputUses = n.inputUses ∧
      (f j n).envUses = n.envUses)
    (hlist : ∀ j, g'.OnList j ↔ g.OnList j) (hphis : ∀ c j, g'.HasPhi c j ↔ g.HasPhi c j) : g'.Exact where
  housed := hhoused
  inputs := h.inputs.congr
    (fun d => hmaps.inputUses?_eq fun n => (hf d n).2.2.1)
    (fun u => present_iff_of_views hlist hphis (hmaps.aliveIn fun j n => by rw [(hf j n).1]) u.user)
    fun u _ => hmaps.inputAt (fun j n => by rw [(hf j n).1]) u
  envs := h.envs.congr
    (fun d => hmaps.envUses?_eq fun n => (hf d n).2.2.2)
    (fun u => hlist u.user)
    fun u _ => hmaps.resumeAt fun n => by unfold Node.envValues; rw [(hf u.user n).2.1]

theorem settle (h : g.Exact) (hn : g.nodes[i.index]? = some n) (hfree : g.layout.home? i = none)
    (hphi : ∀ c, ¬ g.HasPhi c i) {is : List InstId} (his : is.Perm (i :: g.layout.insts b)) :
    (g.settled i n b is).Exact := by
  have hnot : ¬ g.OnList i := by
    rintro ⟨c, hc⟩
    rw [hfree] at hc
    cases hc
  have habsent : ¬ g.Present i := fun hpresent =>
    hpresent.elim hnot fun ⟨⟨c, hc⟩, _⟩ => hphi c hc
  have hhoused : (g.settled i n b is).Housed := by
    refine h.housed.place hfree hphi his layout_settled ?_ (fun j hj => ?_) fun _ _ => hasPhi_settled
    · unfold blockOf
      rw [maps_settled, hn]
      simp [Node.addUses]
    · exact maps_settled.blockOf fun m => by rw [if_neg hj]; rfl
  have hinputs : Lists (g.settled i n b is).inputUses? (fun u => g.Present u.user ∨ u.user = i) g.inputAt :=
    h.inputs.add (fun u hu hcounts => habsent (hu ▸ hcounts)) (fun _ hu => inputAt_of_node hn hu) inputUses?_settled
  have henvs : Lists (g.settled i n b is).envUses? (fun u => g.OnList u.user ∨ u.user = i) g.resumeAt :=
    h.envs.add (fun u hu hcounts => hnot (hu ▸ hcounts)) (fun _ hu => resumeAt_of_node hn hu) envUses?_settled
  refine ⟨hhoused, hinputs.congr (fun _ => rfl) (fun u => present_settled) fun u _ => ?_,
    henvs.congr (fun _ => rfl) (fun u => onList_settled) fun u _ => ?_⟩
  · exact maps_settled.inputAt (fun j n => by rw [inst_settled]) u
  · exact maps_settled.resumeAt fun m => by split <;> rfl

theorem withdraw (h : g.Exact) (hn : g.nodes[i.index]? = some n) (hhoused : g'.Housed)
    (hmaps : Maps g g' fun j m => { m.dropUses (usesBy i n.inst.args) (usesBy i n.envValues) j with
      block := if j = i then none else m.block })
    (hlist : ∀ j, g'.OnList j ↔ g.OnList j ∧ j ≠ i) (hpresent : ∀ j, g'.Present j ↔ g.Present j ∧ j ≠ i) :
    g'.Exact where
  housed := hhoused
  inputs := (h.inputs.drop (fun _ hu => inputAt_of_node hn hu) fun _ => hmaps.inputUses? fun _ => rfl).congr
    (fun _ => rfl) (fun u => hpresent u.user) fun u _ => hmaps.inputAt (fun _ _ => rfl) u
  envs := (h.envs.drop (fun _ hu => resumeAt_of_node hn hu) fun _ => hmaps.envUses? fun _ => rfl).congr
    (fun _ => rfl) (fun u => hlist u.user) fun _ _ => hmaps.resumeAt fun _ => rfl

end Exact

theorem maps_removed : Maps g (g.removed i n b) fun j m =>
    { m.dropUses (usesBy i n.inst.args) (usesBy i n.envValues) j with block := if j = i then none else m.block } := by
  intro j
  unfold FlowGraph.removed
  rw [nodes_withLayout, nodes_withNode, nodes_mapNodes, Option.map_map]
  congr 1
  funext m
  simp only [Function.comp_apply]
  split <;> rfl

theorem size_removed : (g.removed i n b).nodes.size = g.nodes.size := by
  unfold FlowGraph.removed
  rw [nodes_withLayout, size_withNode, size_mapNodes]

/-! ### Inputs that are set -/

section

variable {user a d : InstId} {k : Nat}

theorem maps_rewired : Maps g (g.rewired user k a d) fun j n =>
    { n with
      inst := if j = user then n.inst.setArg k d else n.inst
      inputUses := (if j = a then n.inputUses.filter (· != ⟨user, k⟩) else n.inputUses) ++
        if j = d then [⟨user, k⟩] else [] } := by
  intro j
  rw [rewired, nodes_forgetUses, nodes_mapNodes]

theorem inputAt_rewired (ha : g.inputAt ⟨user, k⟩ = some a) (u : Use) :
    (g.rewired user k a d).inputAt u = if u = ⟨user, k⟩ then some d else g.inputAt u := by
  unfold inputAt Ssa.inputOf at ha ⊢
  rw [maps_rewired]
  by_cases huser : u.user = user
  · cases hn : g.nodes[user.index]? with
    | none => simp [hn] at ha
    | some n =>
      simp only [hn, Option.bind_some] at ha
      have heq : u = ⟨user, k⟩ ↔ u.index = k := by cases u; simp_all
      by_cases hk : u.index = k
      · simp [huser, hn, heq, hk, Inst.setArg_eq, ha]
      · simp [huser, hn, heq, hk, Inst.setArg_eq]
  · have hne : u ≠ ⟨user, k⟩ := fun heq => huser (by rw [heq])
    rw [if_neg hne]
    cases g.nodes[u.user.index]? <;> simp [huser]

theorem aliveIn_rewired (i : InstId) : Ssa.aliveIn (g.rewired user k a d) i = Ssa.aliveIn g i :=
  maps_rewired.aliveIn (fun j n => by dsimp only; split <;> simp [Inst.setArg_eq]) i

theorem inputUses?_rewired (j : InstId) : (g.rewired user k a d).inputUses? j = (g.inputUses? j).map fun us =>
    (if j = a then us.filter (· != ⟨user, k⟩) else us) ++ if j = d then [⟨user, k⟩] else [] :=
  maps_rewired.inputUses? fun _ => rfl

theorem present_rewired (i : InstId) : (g.rewired user k a d).Present i ↔ g.Present i :=
  present_iff_of_views (g := g) (h := g.rewired user k a d) (fun _ => .rfl) (fun _ _ => .rfl) aliveIn_rewired i

theorem Housed.rewire (h : g.Housed) : (g.rewired user k a d).Housed :=
  h.congr rfl (fun _ => maps_rewired.blockOf fun _ => rfl) fun _ _ => .rfl

theorem envs_rewired (h : Lists g.envUses? (fun u => g.OnList u.user) g.resumeAt) :
    Lists (g.rewired user k a d).envUses? (fun u => (g.rewired user k a d).OnList u.user)
    (g.rewired user k a d).resumeAt :=
  h.congr (fun _ => maps_rewired.envUses?_eq fun _ => rfl) (fun _ => .rfl) fun _ _ => maps_rewired.resumeAt fun _ => rfl

theorem Exact.rewire (h : g.Exact) (huser : g.Present user) (ha : g.inputAt ⟨user, k⟩ = some a) :
    (g.rewired user k a d).Exact where
  housed := h.housed.rewire
  inputs := by
    refine (h.inputs.set ha inputUses?_rewired (by rw [inputAt_rewired ha, if_pos rfl]) fun u hu => ?_).congr
      (fun _ => rfl) (fun u => ?_) fun _ _ => rfl
    · rw [inputAt_rewired ha, if_neg hu]
    · rw [present_rewired, or_iff_left_of_imp]
      rintro rfl
      exact huser
  envs := envs_rewired h.envs

end

/-! ### Uses that are redirected -/

section

variable {old new : InstId} {us es : List Use}

theorem maps_redirected : Maps g (g.redirected old new us es) fun j n =>
    ((n.redirectInputs us new j).redirectEnv es new j).takeOver old new us es j := by
  intro j
  rw [redirected, nodes_forgetUses, nodes_mapNodes]

theorem inst_takeOver (j : InstId) (n : Node) : (n.takeOver old new us es j).inst = n.inst := by
  unfold Node.takeOver
  split
  · rfl
  · split <;> rfl

theorem env_takeOver (j : InstId) (n : Node) : (n.takeOver old new us es j).env = n.env := by
  unfold Node.takeOver
  split
  · rfl
  · split <;> rfl

theorem block_takeOver (j : InstId) (n : Node) : (n.takeOver old new us es j).block = n.block := by
  unfold Node.takeOver
  split
  · rfl
  · split <;> rfl

theorem inputAt_redirected (u : Use) :
    (g.redirected old new us es).inputAt u = (g.inputAt u).map fun a => if u ∈ us then new else a := by
  unfold inputAt Ssa.inputOf
  rw [maps_redirected]
  cases g.nodes[u.user.index]? with
  | none => rfl
  | some n => simp [inst_takeOver, Node.redirectInputs, Node.redirectEnv]

theorem resumeAt_redirected (u : Use) :
    (g.redirected old new us es).resumeAt u = (g.resumeAt u).map fun a => if u ∈ es then new else a := by
  unfold resumeAt Ssa.resumeOf Node.envValues
  rw [maps_redirected]
  cases g.nodes[u.user.index]? with
  | none => rfl
  | some n => cases henv : n.env <;> simp [env_takeOver, Node.redirectInputs, Node.redirectEnv, henv]

theorem Exact.redirect (h : g.Exact) (hn : g.nodes[old.index]? = some n) (hne : old ≠ new) :
    (g.redirected old new n.inputUses n.envUses).Exact where
  housed := h.housed.congr rfl (fun _ => maps_redirected.blockOf fun _ => block_takeOver _ _) fun _ _ => .rfl
  inputs := by
    have hpresent := present_iff_of_views (g := g) (h := g.redirected old new n.inputUses n.envUses) (fun _ => .rfl)
      (fun _ _ => .rfl) (maps_redirected.aliveIn fun j
      n => by simp [inst_takeOver, Node.redirectInputs, Node.redirectEnv])
    have hus : g.inputUses? old = some n.inputUses := by
      rw [inputUses?, hn]
      rfl
    refine (h.inputs.redirect hne hus ?_ ?_ (fun j hold hnew => ?_)
      inputAt_redirected).congr (fun _ => rfl) (fun u => hpresent u.user) fun _ _ => rfl
    · rw [maps_redirected.inputUses? (t := fun _ => []) fun m => by simp [Node.takeOver], hus]
      rfl
    · exact maps_redirected.inputUses? fun m => by
        simp [Node.takeOver, Ne.symm hne, Node.redirectInputs, Node.redirectEnv]
    · refine maps_redirected.inputUses?_eq fun m => ?_
      simp [Node.takeOver, hold, hnew, Node.redirectInputs, Node.redirectEnv]
  envs := by
    have hus : g.envUses? old = some n.envUses := by
      rw [envUses?, hn]
      rfl
    refine (h.envs.redirect hne hus ?_ ?_ (fun j hold hnew => ?_)
      resumeAt_redirected).congr (fun _ => rfl) (fun _ => .rfl) fun _ _ => rfl
    · rw [maps_redirected.envUses? (t := fun _ => []) fun m => by simp [Node.takeOver], hus]
      rfl
    · exact maps_redirected.envUses? fun m => by
        simp [Node.takeOver, Ne.symm hne, Node.redirectInputs, Node.redirectEnv]
    · refine maps_redirected.envUses?_eq fun m => ?_
      simp [Node.takeOver, hold, hnew, Node.redirectInputs, Node.redirectEnv]

end

/-! ### Environments -/

section

variable {e : Option Environment}

theorem maps_resuming : Maps g (g.resuming i n e) fun j m =>
    let m' := m.dropUses [] (usesBy i n.envValues) j
    let m'' := if j = i then { m' with env := e } else m'
    if n.block.isSome then m''.addUses [] (usesBy i ((e.map Environment.values).getD [])) j else m'' := by
  intro j
  unfold resuming
  split
  · rw [nodes_mapNodes, nodes_withNode, nodes_mapNodes, Option.map_map, Option.map_map]
    rfl
  · rw [nodes_withNode, nodes_mapNodes, Option.map_map]
    rfl

theorem layout_resuming : (g.resuming i n e).layout = g.layout := by
  unfold resuming
  split <;> rfl

theorem blocks_resuming : (g.resuming i n e).blocks = g.blocks := by
  unfold resuming
  split <;> rfl

theorem onList_resuming : (g.resuming i n e).OnList j ↔ g.OnList j := by
  unfold OnList
  rw [layout_resuming]

theorem inputUses?_resuming (d : InstId) : (g.resuming i n e).inputUses? d = g.inputUses? d := by
  refine maps_resuming.inputUses?_eq fun m => ?_
  dsimp only
  split <;> split <;> simp [Node.addUses, Node.dropUses, usesOf]

theorem envUses?_resuming (d : InstId) : (g.resuming i n e).envUses? d =
    ((g.envUses? d).map (·.filter fun u => (d, u) ∉ usesBy i n.envValues)).map
      (· ++ if n.block.isSome then usesOf (usesBy i ((e.map Environment.values).getD [])) d else []) := by
  rw [Option.map_map]
  refine maps_resuming.envUses? fun m => ?_
  dsimp only
  split <;> split <;> simp [Node.addUses, Node.dropUses]

theorem inputAt_resuming (u : Use) : (g.resuming i n e).inputAt u = g.inputAt u :=
  maps_resuming.inputAt (fun j m => by dsimp only; split <;> split <;> rfl) u

theorem resumeAt_resuming_of_ne (hu : u.user ≠ i) : (g.resuming i n e).resumeAt u = g.resumeAt u :=
  maps_resuming.resumeAt fun m => by
    dsimp only
    rw [if_neg hu]
    split <;> rfl

theorem resumeAt_resuming (hn : g.nodes[i.index]? = some n) (hu : u.user = i) :
    (g.resuming i n e).resumeAt u = ((e.map Environment.values).getD [])[u.index]? := by
  unfold resumeAt Ssa.resumeOf Node.envValues
  rw [maps_resuming, hu, hn]
  simp only [Option.map_some, Option.bind_some, if_true]
  split <;> rfl

theorem Exact.resume (h : g.Exact) (hn : g.nodes[i.index]? = some n) (hi : g.OnList i ∨ n.block = none) :
    (g.resuming i n e).Exact := by
  have hphis (c : BlockId) (j : InstId) : (g.resuming i n e).HasPhi c j ↔ g.HasPhi c j :=
    hasPhi_of_blocks blocks_resuming
  have hblock (j : InstId) : (g.resuming i n e).blockOf j = g.blockOf j := maps_resuming.blockOf fun m => by
    dsimp only
    split <;> split <;> rfl
  have halive (j : InstId) : Ssa.aliveIn (g.resuming i n e) j = Ssa.aliveIn g j :=
    maps_resuming.aliveIn (fun k m => by dsimp only; split <;> split <;> rfl) j
  refine ⟨h.housed.congr layout_resuming hblock hphis, h.inputs.congr inputUses?_resuming
    (fun u => present_iff_of_views (fun _ => onList_resuming) hphis halive u.user) fun u _ => inputAt_resuming u, ?_⟩
  -- without the old environment, the new one does not matter
  have hdropped : Lists (fun d => (g.envUses? d).map (·.filter fun u => (d, u) ∉ usesBy i n.envValues))
      (fun u => g.OnList u.user ∧ u.user ≠ i) (g.resuming i n e).resumeAt :=
    (h.envs.drop (fun _ hu => resumeAt_of_node hn hu) fun _ => rfl).congr (fun _ => rfl) (fun _ => .rfl)
      fun u hu => resumeAt_resuming_of_ne hu.2
  have hblockOf := blockOf_of_node hn
  by_cases hon : g.OnList i
  · obtain ⟨b, hb⟩ := id hon
    have hsome : n.block.isSome := by rw [← hblockOf, h.housed.placed i b hb]; rfl
    refine (hdropped.add (i := i) (fun u hu hcounts => hcounts.2 hu) (fun u hu => resumeAt_resuming hn hu) fun d =>
      ?_).congr (fun _ => rfl) (fun u => ?_) fun _ _ => rfl
    · rw [envUses?_resuming, if_pos hsome]
    · rw [onList_resuming]
      by_cases hu : u.user = i
      · simp [hu, hon]
      · simp [hu]
  · have hnone : n.block = none := hi.resolve_left hon
    refine hdropped.congr (fun d => ?_) (fun u => ?_) fun _ _ => rfl
    · rw [envUses?_resuming, hnone]
      simp [Function.comp_def]
    · rw [onList_resuming]
      refine (and_iff_left_of_imp ?_).symm
      rintro hu rfl
      exact hon hu

end

end FlowGraph

/-! ## Checking graphs -/

/-- Lists are checked one definition and one place after another. -/
theorem Lists.iff_bounded {uses : InstId → Option (List Use)} {counts : Use → Prop} {value : Use → Option InstId}
    {size : Nat} {width : InstId → Nat} (huses : ∀ d us, uses d = some us → d.index < size)
    (hvalue : ∀ u d, value u = some d → u.user.index < size ∧ u.index < width u.user) :
    Lists uses counts value ↔
      (∀ d < size, ∀ us ∈ uses ⟨d⟩, us.Nodup ∧ ∀ u ∈ us, counts u ∧ value u = some ⟨d⟩) ∧
        ∀ i < size, ∀ k < width ⟨i⟩, counts ⟨⟨i⟩, k⟩ → ∀ d ∈ value ⟨⟨i⟩, k⟩, ∀ us ∈ uses d, ⟨⟨i⟩, k⟩ ∈ us := by
  constructor
  · intro h
    refine ⟨fun d _ us hus => ?_, fun i _ k _ hcounts d hd us hus => ?_⟩
    · exact ⟨(h ⟨d⟩ us hus).1, fun u hu => ((h ⟨d⟩ us hus).2 u).mp hu⟩
    · exact ((h d us hus).2 _).mpr ⟨hcounts, hd⟩
  · rintro ⟨hlisted, hlists⟩ d us hus
    obtain ⟨hnodup, hmem⟩ := hlisted d.index (huses d us hus) us hus
    refine ⟨hnodup, fun u => ⟨hmem u, fun ⟨hcounts, hd⟩ => ?_⟩⟩
    obtain ⟨hi, hk⟩ := hvalue u d hd
    exact hlists u.user.index hi u.index hk hcounts d hd us hus

namespace FlowGraph

variable {g : FlowGraph} {i : InstId} {b : BlockId}

instance : Decidable (g.OnList i) := decidable_of_iff (g.layout.isPlaced i = true) Layout.isPlaced_iff

instance : Decidable (g.HasPhi b i) :=
  decidable_of_iff (∃ k ∈ g.blocks[b.index]?, i ∈ k.phis) .rfl

instance : Decidable (∃ b, g.HasPhi b i) :=
  decidable_of_iff (∃ b < g.blocks.size, g.HasPhi ⟨b⟩ i) <| by
    refine ⟨fun ⟨b, _, hb⟩ => ⟨⟨b⟩, hb⟩, fun ⟨b, hb⟩ => ⟨b.index, ?_, hb⟩⟩
    obtain ⟨k, hk, -⟩ := hb
    exact (Array.getElem?_eq_some_iff.mp hk).1

instance : Decidable (g.Present i) := inferInstanceAs (Decidable (_ ∨ _))

instance : Decidable g.Housed :=
  decidable_of_iff (g.layout.Sound ∧
  (∀ i < g.layout.homes.slots.size, ∀ b ∈ g.layout.home? ⟨i⟩, g.blockOf ⟨i⟩ = some b) ∧
    ∀ b < g.blocks.size, ∀ k ∈ g.blocks[b]?, ∀ i ∈ k.phis, g.layout.home? i = none ∧ g.blockOf i = some ⟨b⟩) <| by
    constructor
    · rintro ⟨hsound, hplaced, hphis⟩
      refine ⟨hsound, fun i b hb => hplaced i.index ?_ b hb, fun b i ⟨k, hk, hi⟩ => ?_⟩
      · by_contra hge
        simp [Layout.home?, SideTable.get?, Array.getElem?_eq_none (Nat.not_lt.mp hge)] at hb
      · exact hphis b.index (Array.getElem?_eq_some_iff.mp hk).1 k hk i hi
    · rintro ⟨hsound, hplaced, hphis⟩
      exact ⟨hsound, fun i _ b hb => hplaced ⟨i⟩ b hb, fun b _ k hk i hi => hphis ⟨b⟩ i ⟨k, hk, hi⟩⟩

/-- How many values the node has under a list of them. -/
def widthOf (g : FlowGraph) (values : Node → List InstId) (i : InstId) : Nat :=
  ((g.nodes[i.index]?).map fun n => (values n).length).getD 0

theorem within_of_bind {v : Node → List InstId} {u : Use} {d : InstId}
    (hd : ((g.nodes[u.user.index]?).bind fun n => (v n)[u.index]?) = some d) :
    u.user.index < g.nodes.size ∧ u.index < g.widthOf v u.user := by
  obtain ⟨n, hn, hk⟩ := Option.bind_eq_some_iff.mp hd
  refine ⟨(Array.getElem?_eq_some_iff.mp hn).1, ?_⟩
  unfold widthOf
  rw [hn]
  exact (List.getElem?_eq_some_iff.mp hk).1

theorem known_of_map {lists : Node → List Use} {d : InstId} {us : List Use}
    (hus : (g.nodes[d.index]?).map lists = some us) : d.index < g.nodes.size := by
  obtain ⟨n, hn, -⟩ := Option.map_eq_some_iff.mp hus
  exact (Array.getElem?_eq_some_iff.mp hn).1

instance : Decidable (Lists g.inputUses? (fun u => g.Present u.user) g.inputAt) :=
  decidable_of_iff' _ (Lists.iff_bounded (fun _ _ => known_of_map)
    fun _ _ => within_of_bind (v := fun n => n.inst.args))

instance : Decidable (Lists g.envUses? (fun u => g.OnList u.user) g.resumeAt) :=
  decidable_of_iff' _ (Lists.iff_bounded (fun _ _ => known_of_map)
    fun _ _ => within_of_bind (v := Node.envValues))

instance : Decidable g.Exact :=
  decidable_of_iff (_ ∧ _ ∧ _)
    ⟨fun ⟨hhoused, hinputs, henvs⟩ => ⟨hhoused, hinputs, henvs⟩, fun h => ⟨h.housed, h.inputs, h.envs⟩⟩

end FlowGraph

end Midend

import Midend.Proofs.Graph.Revisions

/-! # Phis as users

A phi is made dead, and its inputs are set one after another. Each time it is registered as a user, as if it were alive
already. So it is an exact user of its inputs once it has come to life, and is listed twice if they are registered
again.
-/

namespace Midend

open Edit (usesBy usesOf count_usesOf inputLimit)

namespace Edit

/-- A phi of `b` whose inputs are set one after another. It is still dead. -/
def shapePhi (b : BlockId) (slot : Option Nat) (width : Nat) (sets : List (Nat × InstId)) : Edit InstId := do
  let i ← addPhi b slot width
  sets.forM fun s => setArg i s.1 s.2
  return i

/-- The phi is shaped, brought to life and registered as a user of its inputs. -/
def buildPhi (b : BlockId) (slot : Option Nat) (width : Nat) (sets : List (Nat × InstId)) : Edit InstId := do
  let i ← shapePhi b slot width sets
  insertPhi i
  return i

end Edit

namespace FlowGraph

/-- The graph with a new phi of `b` that is dead and reads nothing. -/
def withPhi (g : FlowGraph) (b : BlockId) (slot : Option Nat) (width : Nat) : FlowGraph :=
  (g.withInst { inst := .phi slot (List.replicate width .unset) false .tagged, block := some b }).withBlock b
    fun k => { k with phis := k.phis ++ [g.nextId] }

/-- The graph in which the phi `i` has come to life. -/
def revived (g : FlowGraph) (i : InstId) : FlowGraph := g.withNode i fun n => { n with inst := n.inst.revive }

/-- The graph in which `i` has been told to use `ds` once more. -/
def registered (g : FlowGraph) (i : InstId) (ds : List InstId) : FlowGraph :=
  g.mapNodes fun j m => m.addUses (usesBy i ds) [] j

end FlowGraph

namespace Leads

open FlowGraph

variable {fault : Prop} {g : FlowGraph} {i : InstId} {n : Node} {b : BlockId} {slot : Option Nat} {width : Nat}

theorem addPhi (hb : b.index < g.blocks.size) (hwidth : width < inputLimit) :
    Leads fault g (Edit.addPhi b slot width) fun i g' => i = g.nextId ∧ g' = g.withPhi b slot width := by
  have hid : g.nextId.index < g.nodes.size + 1 := Nat.lt_succ_self _
  unfold Edit.addPhi Edit.setBlock
  rw [if_neg (Nat.not_le.mpr hwidth), bind_iff, addInst_iff, bind_iff, modifyNode_iff, size_withInst]
  refine ⟨fun _ => ?_, fun hge => absurd hid (Nat.not_lt.mpr hge)⟩
  rw [withNode_withInst, bind_iff, modifyBlock_iff]
  exact ⟨fun _ => ⟨rfl, rfl⟩, fun hge => absurd hb (Nat.not_lt.mpr hge)⟩

end Leads

namespace FlowGraph

variable {g : FlowGraph} {i j d : InstId} {n : Node} {b c : BlockId} {u : Use} {slot : Option Nat} {width k : Nat}
  {sets : List (Nat × InstId)}

/-! ### A new phi -/

theorem nodes_withPhi (j : InstId) : (g.withPhi b slot width).nodes[j.index]? =
    if j = g.nextId then some { inst := .phi slot (List.replicate width .unset) false .tagged, block := some b }
    else g.nodes[j.index]? := by
  unfold withPhi
  rw [nodes_withBlock, nodes_withInst]

theorem hasPhi_withPhi (hb : b.index < g.blocks.size) :
    (g.withPhi b slot width).HasPhi c j ↔ g.HasPhi c j ∨ c = b ∧ j = g.nextId := by
  unfold withPhi
  rw [Located.hasPhi_append]
  exact or_congr_right (and_congr_right fun _ => and_iff_left hb)

theorem inputUses?_withPhi (d : InstId) :
    (g.withPhi b slot width).inputUses? d = if d = g.nextId then some [] else g.inputUses? d := by
  unfold inputUses?
  rw [nodes_withPhi]
  split <;> rfl

theorem envUses?_withPhi (d : InstId) :
    (g.withPhi b slot width).envUses? d = if d = g.nextId then some [] else g.envUses? d := by
  unfold envUses?
  rw [nodes_withPhi]
  split <;> rfl

theorem inputAt_withPhi_of_ne (hu : u.user ≠ g.nextId) : (g.withPhi b slot width).inputAt u = g.inputAt u := by
  unfold inputAt Ssa.inputOf
  rw [nodes_withPhi, if_neg hu]

theorem inputAt_withPhi_self (k : Nat) :
    (g.withPhi b slot width).inputAt ⟨g.nextId, k⟩ = if k < width then some .unset else none := by
  unfold inputAt Ssa.inputOf
  rw [nodes_withPhi, if_pos rfl]
  exact List.getElem?_replicate

theorem resumeAt_withPhi_of_ne (hu : u.user ≠ g.nextId) : (g.withPhi b slot width).resumeAt u = g.resumeAt u := by
  unfold resumeAt Ssa.resumeOf
  rw [nodes_withPhi, if_neg hu]

namespace Housed

theorem blockOf_nextId : g.blockOf g.nextId = none := by
  unfold blockOf nextId
  simp

theorem ne_nextId_of_onList (h : g.Housed) (hj : g.OnList j) : j ≠ g.nextId := by
  rintro rfl
  obtain ⟨b, hb⟩ := hj
  have hblock := h.placed _ b hb
  rw [blockOf_nextId] at hblock
  cases hblock

theorem ne_nextId_of_hasPhi (h : g.Housed) (hj : g.HasPhi c j) : j ≠ g.nextId := by
  rintro rfl
  have hblock := (h.phis c _ hj).2
  rw [blockOf_nextId] at hblock
  cases hblock

theorem ne_nextId_of_present (h : g.Housed) (hj : g.Present j) : j ≠ g.nextId :=
  hj.elim h.ne_nextId_of_onList fun ⟨⟨_, hc⟩, _⟩ => h.ne_nextId_of_hasPhi hc

theorem withPhi (h : g.Housed) (hb : b.index < g.blocks.size) : (g.withPhi b slot width).Housed where
  sound := h.sound
  placed j c hc := by
    have hne : j ≠ g.nextId := h.ne_nextId_of_onList ⟨c, hc⟩
    unfold blockOf
    rw [nodes_withPhi, if_neg hne]
    exact h.placed j c hc
  phis c j hj := by
    unfold blockOf
    rw [nodes_withPhi]
    obtain hj | ⟨rfl, rfl⟩ := (hasPhi_withPhi hb).mp hj
    · rw [if_neg (h.ne_nextId_of_hasPhi hj)]
      exact h.phis c j hj
    · rw [if_pos rfl]
      refine ⟨Option.eq_none_iff_forall_ne_some.mpr fun c hc => h.ne_nextId_of_onList ⟨c, hc⟩ rfl, rfl⟩

end Housed

theorem present_withPhi (h : g.Housed) (hb : b.index < g.blocks.size) :
    (g.withPhi b slot width).Present j ↔ g.Present j := by
  by_cases hj : j = g.nextId
  · subst hj
    refine iff_of_false ?_ fun hj => h.ne_nextId_of_present hj rfl
    rintro (hj | ⟨-, halive⟩)
    · exact h.ne_nextId_of_onList hj rfl
    · unfold Ssa.aliveIn at halive
      rw [nodes_withPhi, if_pos rfl] at halive
      cases halive
  · unfold Present Ssa.aliveIn
    rw [nodes_withPhi, if_neg hj]
    simp only [hasPhi_withPhi hb, hj, and_false, or_false]
    exact .rfl

/-! ### Setting its inputs -/

/-- The phi `i` has `width` inputs, and `sets` have been set. It is registered as a user of these, alive or not. -/
structure Shaping (g : FlowGraph) (i : InstId) (width : Nat) (sets : List (Nat × InstId)) : Prop where
  housed : g.Housed
  phi : ∃ b, g.HasPhi b i
  node : ∃ n, g.nodes[i.index]? = some n ∧ n.inst.isPhi = true
  values : ∀ k, g.inputAt ⟨i, k⟩ = if k < width then some ((sets.reverse.lookup k).getD .unset) else none
  inputs : Lists g.inputUses? (fun u => g.Present u.user ∨ u.user = i ∧ u.index ∈ sets.map Prod.fst) g.inputAt
  envs : Lists g.envUses? (fun u => g.OnList u.user) g.resumeAt

/-- No instruction refers to the one that is made next. -/
def NextUnread (g : FlowGraph) : Prop := ∀ n ∈ g.nodes, g.nextId ∉ n.inst.args ∧ g.nextId ∉ n.envValues

instance : Decidable g.NextUnread :=
  inferInstanceAs (Decidable (∀ n ∈ g.nodes, g.nextId ∉ n.inst.args ∧ g.nextId ∉ n.envValues))

theorem NextUnread.inputAt_ne (h : g.NextUnread) (u : Use) : g.inputAt u ≠ some g.nextId := by
  intro hu
  obtain ⟨n, hn, hk⟩ := Option.bind_eq_some_iff.mp hu
  exact (h n (Array.mem_of_getElem? hn)).1 (List.mem_of_getElem? hk)

theorem NextUnread.resumeAt_ne (h : g.NextUnread) (u : Use) : g.resumeAt u ≠ some g.nextId := by
  intro hu
  obtain ⟨n, hn, hk⟩ := Option.bind_eq_some_iff.mp hu
  exact (h n (Array.mem_of_getElem? hn)).2 (List.mem_of_getElem? hk)

theorem Exact.shaping (h : g.Exact) (hnext : g.NextUnread) (hb : b.index < g.blocks.size) :
    (g.withPhi b slot width).Shaping g.nextId width [] where
  housed := h.housed.withPhi hb
  phi := ⟨b, (hasPhi_withPhi hb).mpr (.inr ⟨rfl, rfl⟩)⟩
  node := ⟨_, by rw [nodes_withPhi, if_pos rfl], rfl⟩
  values := inputAt_withPhi_self
  inputs := by
    refine (h.inputs.extend inputUses?_withPhi (fun u hu => ?_) fun u _ => hnext.inputAt_ne u).congr (fun _ => rfl)
      (fun u => ?_) fun _ _ => rfl
    · exact inputAt_withPhi_of_ne (h.housed.ne_nextId_of_present hu)
    · rw [present_withPhi h.housed hb]
      simp
  envs := by
    refine (h.envs.extend envUses?_withPhi (fun u hu => ?_) fun u _ => hnext.resumeAt_ne u).congr (fun _ => rfl)
      (fun _ => .rfl) fun _ _ => rfl
    exact resumeAt_withPhi_of_ne (h.housed.ne_nextId_of_onList hu)

theorem Shaping.setArg (h : g.Shaping i width sets) (hk : k < width) :
    Leads False g (Edit.setArg i k d) fun _ g' => g'.Shaping i width (sets ++ [(k, d)]) ∧
      g'.nodes.size = g.nodes.size := by
  obtain ⟨n, hn, hphi⟩ := h.node
  have hvalue := h.values k
  rw [if_pos hk] at hvalue
  have hlt : k < n.inst.args.length := by
    rw [inputAt_of_node hn rfl] at hvalue
    exact (List.getElem?_eq_some_iff.mp hvalue).1
  refine (Leads.setArg fun _ => ⟨n, hn, hlt⟩).mono ?_
  rintro _ _ ⟨m, a, hm, ha, rfl⟩
  have hat : g.inputAt ⟨i, k⟩ = some a := (inputAt_of_node hm rfl).trans ha
  refine ⟨⟨h.housed.rewire, h.phi, ⟨_, by rw [maps_rewired, hn]; rfl, ?_⟩, fun j => ?_, ?_, envs_rewired h.envs⟩, ?_⟩
  · dsimp only
    rw [if_pos rfl, Inst.setArg_eq, Inst.isPhi_mapArgs, hphi]
  · rw [inputAt_rewired hat, h.values, List.reverse_append, List.reverse_singleton, List.singleton_append,
      List.lookup_cons]
    by_cases hj : j = k
    · simp [hj, hk]
    · rw [beq_false_of_ne hj, if_neg fun heq => hj (congrArg Use.index heq)]
  · refine (h.inputs.set hat inputUses?_rewired (by rw [inputAt_rewired hat, if_pos rfl]) fun u hu => ?_).congr
      (fun _ => rfl) (fun u => ?_) fun _ _ => rfl
    · rw [inputAt_rewired hat, if_neg hu]
    · have heq : u = ⟨i, k⟩ ↔ u.user = i ∧ u.index = k := by cases u; simp
      rw [present_rewired, heq]
      simp only [List.map_append, List.mem_append, List.map_cons, List.map_nil, List.mem_singleton]
      tauto
  · rw [rewired, nodes_forgetUses, size_mapNodes]

/-! ### Coming to life -/

theorem maps_revived : Maps g (g.revived i) fun j n => if j = i then { n with inst := n.inst.revive } else n :=
  fun j => nodes_withNode i j _

theorem node_revived (hn : g.nodes[i.index]? = some n) :
    (g.revived i).nodes[i.index]? = some { n with inst := n.inst.revive } := by
  unfold revived
  rw [nodes_withNode_self, hn]
  rfl

theorem inputAt_revived (u : Use) : (g.revived i).inputAt u = g.inputAt u :=
  maps_revived.inputAt (fun j n => by split <;> simp) u

namespace Shaping

theorem present_revived (h : g.Shaping i width sets) (j : InstId) :
    (g.revived i).Present j ↔ g.Present j ∨ j = i := by
  obtain ⟨n, hn, hphi⟩ := h.node
  unfold Present Ssa.aliveIn revived
  by_cases hj : j = i
  · subst hj
    rw [nodes_withNode_self, hn]
    simp only [Option.map_some, Option.getD_some, Inst.isAlivePhi_revive, hphi, and_true, or_true, iff_true]
    exact .inr h.phi
  · rw [nodes_withNode_ne hj]
    simp only [hj, or_false]
    exact .rfl

theorem revived (h : g.Shaping i width sets) (hall : ∀ k < width, k ∈ sets.map Prod.fst) :
    (g.revived i).Exact where
  housed := h.housed.congr rfl (fun j => maps_revived.blockOf fun n => by split <;> rfl) fun _ _ => .rfl
  inputs := by
    have hrecount : Lists g.inputUses? (fun u => g.Present u.user ∨ u.user = i) g.inputAt := by
      refine h.inputs.recount fun u d hd => or_congr_right (and_iff_left_of_imp fun hu => hall _ ?_).symm
      have hvalue := h.values u.index
      rw [← hu, hd] at hvalue
      by_contra hge
      rw [if_neg hge] at hvalue
      cases hvalue
    exact hrecount.congr (fun _ => maps_revived.inputUses?_eq fun n => by split <;> rfl)
      (fun u => h.present_revived u.user) fun u _ => inputAt_revived u
  envs := h.envs.congr
    (fun _ => maps_revived.envUses?_eq fun n => by split <;> rfl) (fun _ => .rfl)
    fun u _ => maps_revived.resumeAt fun n => by split <;> rfl

end Shaping

/-! ### Being told once more -/

theorem maps_registered (ds : List InstId) : Maps g (g.registered i ds) fun j m => m.addUses (usesBy i ds) [] j :=
  fun j => nodes_mapNodes j

theorem inputAt_registered (ds : List InstId) (u : Use) : (g.registered i ds).inputAt u = g.inputAt u :=
  (maps_registered ds).inputAt (fun _ _ => rfl) u

theorem present_registered (ds : List InstId) (j : InstId) : (g.registered i ds).Present j ↔ g.Present j :=
  present_iff_of_views (g := g) (h := g.registered i ds) (fun _ => .rfl) (fun _ _ => .rfl)
    ((maps_registered ds).aliveIn fun _ _ => rfl) j

namespace Exact

theorem count_registered (h : g.Exact) (hn : g.nodes[i.index]? = some n) (hi : g.Present i) {us : List Use}
    (hus : (g.registered i n.inst.args).inputUses? d = some us) (u : Use) :
    us.count u = if (g.registered i n.inst.args).Present u.user ∧ (g.registered i n.inst.args).inputAt u = some d
      then if u.user = i then 2 else 1 else 0 := by
  rw [(maps_registered n.inst.args).inputUses? (t := (· ++ usesOf (usesBy i n.inst.args) d)) fun _ => rfl] at hus
  obtain ⟨us₀, hus₀, rfl⟩ := Option.map_eq_some_iff.mp hus
  rw [List.count_append, Lists.iff_count.mp h.inputs d us₀ hus₀, count_usesOf]
  simp only [present_registered, inputAt_registered]
  by_cases hu : u.user = i
  · rw [inputAt_of_node hn hu]
    simp only [hu, hi, true_and, if_true]
    split <;> rfl
  · simp only [hu, false_and, if_false, Nat.add_zero]

theorem registered_iff (h : g.Exact) (hn : g.nodes[i.index]? = some n) (hi : g.Present i) :
    (g.registered i n.inst.args).Exact ↔ ∀ k d, g.inputAt ⟨i, k⟩ = some d → g.nodes.size ≤ d.index := by
  have hsize : (g.registered i n.inst.args).nodes.size = g.nodes.size := size_mapNodes
  constructor
  · intro hexact k d hd
    by_contra hlt
    obtain ⟨us, hus⟩ : ∃ us, (g.registered i n.inst.args).inputUses? d = some us := by
      unfold inputUses?
      rw [Array.getElem?_eq_getElem (by rw [hsize]; omega)]
      exact ⟨_, rfl⟩
    have hcounts : (g.registered i n.inst.args).Present i ∧ (g.registered i n.inst.args).inputAt ⟨i, k⟩ = some d :=
      ⟨(present_registered n.inst.args i).mpr hi, (inputAt_registered n.inst.args _).trans hd⟩
    have hcount := Lists.iff_count.mp hexact.inputs d us hus ⟨i, k⟩
    rw [h.count_registered hn hi hus, if_pos hcounts, if_pos hcounts, if_pos rfl] at hcount
    omega
  · intro hunknown
    refine ⟨h.housed.congr rfl (fun _ => (maps_registered n.inst.args).blockOf fun _ => rfl) fun _ _ => .rfl,
      Lists.iff_count.mpr fun d us hus u => ?_, h.envs.congr (fun d => ?_) (fun _ => .rfl)
        fun _ _ => (maps_registered n.inst.args).resumeAt fun _ => rfl⟩
    · rw [h.count_registered hn hi hus]
      split
      case isTrue hu =>
        refine if_neg ?_
        rintro rfl
        have hge := hunknown u.index d ((inputAt_registered n.inst.args u).symm.trans hu.2)
        exact absurd (known_of_map hus) (Nat.not_lt.mpr (hsize.symm ▸ hge))
      case isFalse => rfl
    · refine (maps_registered n.inst.args).envUses?_eq fun m => ?_
      simp [Node.addUses, usesOf]

end Exact

end FlowGraph

theorem Leads.insertPhi {fault : Prop} {g : FlowGraph} {i : InstId} {n : Node} (hn : g.nodes[i.index]? = some n) :
    Leads fault g (Edit.insertPhi i) fun _ g' => g' = (g.revived i).registered i n.inst.revive.args := by
  unfold Edit.insertPhi Edit.revivePhi
  rw [bind_iff, modifyNode_iff]
  refine ⟨fun _ => ?_, fun hge => absurd (Array.getElem?_eq_some_iff.mp hn).1 (Nat.not_lt.mpr hge)⟩
  exact (addInputUses (FlowGraph.node_revived hn)).mono fun _ _ heq => heq

namespace FlowGraph

variable {g : FlowGraph} {i j d : InstId} {n : Node} {b c : BlockId} {u : Use} {slot : Option Nat} {width k : Nat}
  {sets : List (Nat × InstId)}

/-! ### Building the phi -/

theorem Exact.shapePhi (h : g.Exact) (hnext : g.NextUnread) (hb : b.index < g.blocks.size) (hwidth : width < inputLimit)
    (hsets : ∀ s ∈ sets, s.1 < width) :
    Leads False g (Edit.shapePhi b slot width sets) fun i g' =>
      i = g.nextId ∧ g'.nodes.size = g.nodes.size + 1 ∧ g'.Shaping i width sets := by
  unfold Edit.shapePhi
  rw [Leads.bind_iff]
  refine (Leads.addPhi hb hwidth).mono ?_
  rintro _ _ ⟨rfl, rfl⟩
  rw [Leads.bind_iff]
  refine (Leads.forM (fun done g' => g'.Shaping g.nextId width done ∧ g'.nodes.size = g.nodes.size + 1)
    ⟨h.shaping hnext hb, ?_⟩ ?_).mono ?_
  · rw [withPhi, nodes_withBlock, size_withInst]
  · rintro done ⟨k, d⟩ rest g' hsplit ⟨hshaping, hsize⟩
    refine (hshaping.setArg (d := d) (hsets (k, d) (by simp [hsplit]))).mono ?_
    rintro _ g'' ⟨hshaping', hsize'⟩
    exact ⟨hshaping', hsize'.trans hsize⟩
  · rintro _ g' ⟨hshaping, hsize⟩
    exact ⟨rfl, hsize, hshaping⟩

theorem Exact.shapePhi_revived (h : g.Exact) (hnext : g.NextUnread) (hb : b.index < g.blocks.size)
    (hwidth : width < inputLimit) (hsets : ∀ s ∈ sets, s.1 < width) (hall : ∀ k < width, k ∈ sets.map Prod.fst) :
    Leads False g (do Edit.revivePhi (← Edit.shapePhi b slot width sets)) fun _ g' => g'.Exact := by
  rw [Leads.bind_iff]
  refine (h.shapePhi hnext hb hwidth hsets).mono ?_
  rintro i g' ⟨-, -, hshaping⟩
  unfold Edit.revivePhi
  rw [Leads.modifyNode_iff]
  obtain ⟨n, hn, -⟩ := hshaping.node
  exact ⟨fun _ => hshaping.revived hall, fun hge => absurd (Array.getElem?_eq_some_iff.mp hn).1 (Nat.not_lt.mpr hge)⟩

theorem lookup_of_set (hk : k ∈ sets.map Prod.fst) : ∃ d, sets.reverse.lookup k = some d ∧ (k, d) ∈ sets := by
  cases hd : sets.reverse.lookup k with
  | none =>
    obtain ⟨⟨k, d⟩, hmem, rfl⟩ := List.mem_map.mp hk
    have hne := List.lookup_eq_none_iff.mp hd (k, d) (List.mem_reverse.mpr hmem)
    simp at hne
  | some d =>
    obtain ⟨front, rest, hsplit, -⟩ := List.lookup_eq_some_iff.mp hd
    refine ⟨d, rfl, List.mem_reverse.mp ?_⟩
    rw [hsplit]
    simp

/-- A phi that is built has the inputs that were set last. It is listed twice as a user of each of them, whereas all
other uses are listed once. So the use lists are not exact, unless it has no inputs. -/
theorem Exact.listed_twice (h : g.Exact) (hnext : g.NextUnread) (hb : b.index < g.blocks.size)
    (hwidth : width < inputLimit) (hsets : ∀ s ∈ sets, s.1 < width ∧ s.2.index ≤ g.nodes.size)
    (hall : ∀ k < width, k ∈ sets.map Prod.fst) : ∃ i g', Edit.buildPhi b slot width sets g = .ok (i, g') ∧
      (∀ k < width, g'.inputAt ⟨i, k⟩ = sets.reverse.lookup k) ∧
      (∀ d us, g'.inputUses? d = some us → ∀ u, us.count u =
        if g'.Present u.user ∧ g'.inputAt u = some d then if u.user = i then 2 else 1 else 0) ∧
      (g'.Exact ↔ width = 0) := by
  obtain ⟨⟨i, g₁⟩, hshape, -, hsize, hshaping⟩ := Yields.exists_ok (x := Edit.shapePhi b slot width sets g)
    (h.shapePhi hnext hb hwidth fun s hs => (hsets s hs).1)
  dsimp only at hsize hshaping
  obtain ⟨n, hn, -⟩ := hshaping.node
  obtain ⟨⟨_, g₂⟩, hinsert, hg₂⟩ := (Leads.insertPhi hn).exists_ok
  dsimp only at hg₂
  have hexact := hshaping.revived hall
  have hpresent := (hshaping.present_revived i).mpr (.inr rfl)
  have hnode := node_revived hn
  have hvalues (k : Nat) : (g₁.revived i).inputAt ⟨i, k⟩ =
      if k < width then some ((sets.reverse.lookup k).getD .unset) else none := by
    rw [inputAt_revived, hshaping.values]
  refine ⟨i, g₂, ?_, ?_⟩
  · unfold Edit.buildPhi
    simp only [bind, StateT.bind, hshape, Except.bind, hinsert]
    rfl
  subst hg₂
  refine ⟨fun k hk => ?_, fun d us hus u => hexact.count_registered hnode hpresent hus u, ?_⟩
  · obtain ⟨d, hd, -⟩ := lookup_of_set (hall k hk)
    rw [inputAt_registered, hvalues, if_pos hk, hd, Option.getD_some]
  · refine (hexact.registered_iff hnode hpresent).trans ⟨fun hunknown => ?_, fun hzero k d hd => ?_⟩
    · by_contra hne
      obtain ⟨d, hd, hmem⟩ := lookup_of_set (hall 0 (Nat.pos_of_ne_zero hne))
      have hge := hunknown 0 d (by rw [hvalues, if_pos (Nat.pos_of_ne_zero hne), hd, Option.getD_some])
      have hle : d.index ≤ g.nodes.size := (hsets _ hmem).2
      have hsize₂ : (g₁.revived i).nodes.size = g₁.nodes.size := size_withNode ..
      omega
    · rw [hvalues, hzero, if_neg (Nat.not_lt_zero k)] at hd
      cases hd

end FlowGraph

/-! ### A phi of a sum -/

/-- A parameter, and its sum with itself in the normal entry. -/
def summed : FlowGraph :=
  { name := "summed", parameterCount := 1, localCount := 0
    nodes := #[
      { inst := .parameter 0, block := some FlowGraph.graphEntry, inputUses := [⟨⟨1⟩, 0⟩, ⟨⟨1⟩, 1⟩],
        envUses := [⟨⟨1⟩, 0⟩] },
      { inst := .smiOp .add ⟨0⟩ ⟨0⟩, block := some ⟨1⟩, env := some ⟨[⟨0⟩], 1⟩ }]
    layout := ({} : Layout).place ⟨1⟩ ⟨1⟩ [⟨1⟩] }

/-- The second input is the parameter at first, and then the sum. -/
def summedInputs : List (Nat × InstId) := [(1, ⟨0⟩), (0, ⟨0⟩), (1, ⟨1⟩)]

theorem summed_phi_listed : summed.Exact ∧ summed.NextUnread ∧
    ∃ i g', Edit.buildPhi ⟨1⟩ none 2 summedInputs summed = .ok (i, g') ∧
      (∀ k < 2, g'.inputAt ⟨i, k⟩ = summedInputs.reverse.lookup k) ∧
      (∀ d us, g'.inputUses? d = some us → ∀ u, us.count u =
        if g'.Present u.user ∧ g'.inputAt u = some d then if u.user = i then 2 else 1 else 0) ∧
      (g'.Exact ↔ 2 = 0) :=
  have hexact : summed.Exact := by decide +kernel
  have hnext : summed.NextUnread := by decide +kernel
  have hblock : (⟨1⟩ : BlockId).index < summed.blocks.size := by decide +kernel
  have hwidth : 2 < inputLimit := by decide +kernel
  have hsets : ∀ s ∈ summedInputs, s.1 < 2 ∧ s.2.index ≤ summed.nodes.size := by decide +kernel
  have hall : ∀ k < 2, k ∈ summedInputs.map Prod.fst := by decide +kernel
  ⟨hexact, hnext, hexact.listed_twice hnext hblock hwidth hsets hall⟩

/-- The use lists are not exact any more: the sum has its only use by the phi twice. -/
theorem summed_phi_twice : summed.Exact ∧
    Leads False summed (Edit.buildPhi ⟨1⟩ none 2 summedInputs) fun i g' =>
      g'.inputAt ⟨i, 1⟩ = some ⟨1⟩ ∧ g'.inputUses? ⟨1⟩ = some [⟨i, 1⟩, ⟨i, 1⟩] ∧ ¬ g'.Exact := by
  decide +kernel

end Midend

import Midend.Proofs.Ssa.Paths

/-! # Reads of variables

Construction keeps what every instruction reads. Along each path, the definitions that the frames of renaming
hold have the values of the variables, and the operands of an instruction have the values that they had before.
-/

namespace Midend

open Midend.Flow

namespace Ssa

variable {r p g₀ g g' : FlowGraph} {t : Tour} {init : Frame} {s : Names} {out : BlockId → Frame} {L D : List InstId}
  {null a i v : InstId} {b c : BlockId} {done is : List InstId} {f f' : Frame} {k visit : Nat}
  {σ σ' : Locals} {τ τ' : Values} {ρ ρ' : Sources}

/-! ## What comes before -/

/-- The instruction `a` has run whenever control is in `b` and has run the instructions of `done` there. -/
def Scope (r : FlowGraph) (t : Tour) (b : BlockId) (done : List InstId) (a : InstId) : Prop :=
  a ∈ done ∨ ∃ c, Dominates t c b ∧ c ≠ b ∧ a ∈ r.insts c

theorem filter_mem_of_sublist {α : Type} [DecidableEq α] {xs ys : List α} (h : xs.Sublist ys) (hnodup : ys.Nodup) :
    ys.filter (· ∈ xs) = xs := by
  induction h with
  | slnil => rfl
  | @cons xs ys y hsub ih =>
    obtain ⟨hy, hnodup⟩ := List.nodup_cons.mp hnodup
    rw [List.filter_cons_of_neg (by simpa using fun hmem => hy (hsub.subset hmem)), ih hnodup]
  | @cons_cons xs ys y hsub ih =>
    obtain ⟨hy, hnodup⟩ := List.nodup_cons.mp hnodup
    rw [List.filter_cons_of_pos (by simp)]
    refine congrArg (y :: ·) (Eq.trans (List.filter_congr fun z hz => ?_) (ih hnodup))
    have hne : z ≠ y := fun heq => hy (heq ▸ hz)
    simp [hne]

theorem Raw.block_unique (hr : Raw r) (hb : i ∈ r.insts b) (hc : i ∈ r.insts c) : b = c := by
  have hhome := hr.layout.mem_iff.mp hb
  rwa [hr.layout.mem_iff.mp hc, Option.some_inj, eq_comm] at hhome

theorem Scope.ne (hr : Raw r) (ha : Scope r t b done a) (hi : i ∈ r.insts b) (hnew : i ∉ done) : a ≠ i := by
  rintro rfl
  obtain ha | ⟨c, -, hne, hc⟩ := ha
  · exact hnew ha
  · exact hne (Raw.block_unique hr hc hi)

theorem Base.not_mem_phisOf (h : Base r t g₀) (hlt : i.index < r.nodes.size) : i ∉ phisOf g₀ b := fun hphi =>
  absurd (h.phi_of_mem hphi).1 (Nat.not_le.mpr hlt)

theorem Base.phi_unique (h : Base r t g₀) (hb : i ∈ phisOf g₀ b) (hc : i ∈ phisOf g₀ c) : b = c := by
  have hnode := (h.phi_of_mem hb).2.2.2.2
  rw [(h.phi_of_mem hc).2.2.2.2] at hnode
  simpa [phiNode, eq_comm] using congrArg (fun n => n.map Node.block) hnode

theorem Origin.ne (h : Base r t g₀) (hv : Origin r t g₀ b done v) (hi : i ∈ r.insts b) (hnew : i ∉ done) : v ≠ i := by
  rintro rfl
  have hlt : v.index < r.nodes.size := h.raw.placed v b (h.raw.layout.mem_iff.mp hi)
  obtain hv | ⟨a, -, hv⟩ | ⟨a, -, hne, hv, -⟩ | ⟨hv, -⟩ := hv
  · exact absurd (h.initial v hv).1 (Nat.not_le.mpr hlt)
  · exact h.not_mem_phisOf hlt hv
  · exact hne (Raw.block_unique h.raw hv hi)
  · exact hnew hv

theorem Origin.below (h : Base r t g₀) (hcb : Dominates t c b) (hne : c ≠ b) (hv : Origin r t g₀ c (r.insts c) v) :
    Origin r t g₀ b [] v ∧ v ∉ phisOf g₀ b := by
  have hfall : ∀ {x : BlockId}, Dominates t x c → Dominates t x b ∧ x ≠ b := by
    intro x hx
    refine ⟨hcb.trans hx, ?_⟩
    rintro rfl
    exact hne (Dominates.antisymm h.touring hcb hx)
  have hbuilt : ∀ {x : BlockId}, v ∈ r.insts x → v ∉ phisOf g₀ b := fun hv =>
    h.not_mem_phisOf (h.raw.placed v _ (h.raw.layout.mem_iff.mp hv))
  obtain hv | ⟨x, hx, hv⟩ | ⟨x, hx, -, hv, hvalue⟩ | ⟨hv, hvalue⟩ := hv
  · exact ⟨.inl hv, fun hphi => h.phi_not_initial hphi hv⟩
  · exact ⟨.inr (.inl ⟨x, (hfall hx).1, hv⟩), fun hphi => (hfall hx).2 (h.phi_unique hv hphi)⟩
  · exact ⟨.inr (.inr (.inl ⟨x, (hfall hx).1, (hfall hx).2, hv, hvalue⟩)), hbuilt hv⟩
  · exact ⟨.inr (.inr (.inl ⟨c, hcb, hne, hv, hvalue⟩)), hbuilt hv⟩

section Frames

variable (h : AllRenamed r t g₀ init s g out)

include h

theorem AllRenamed.not_mem_phisOf_into (hb : b ∈ t.preorder) (hne : b ≠ FlowGraph.graphEntry)
    (hv : v ∈ into t init out b) : v ∉ phisOf g₀ b := by
  by_cases hnormal : b = FlowGraph.normalEntry
  · rw [into, if_pos hnormal] at hv
    obtain ⟨k, hk⟩ := List.mem_iff_getElem?.mp hv
    exact fun hphi => h.base.phi_not_initial hphi (h.starts.holds k v hk).1
  · obtain ⟨d, hd⟩ := h.base.touring.exists_idom? hb hne
    rw [into_of_idom hd hnormal] at hv
    have hdne := h.base.touring.idom?_ne_graphEntry h.base.catchEntries hnormal hd
    have hout := (h.stocked (h.base.touring.mem_of_idom? hd).2 hdne).2
    refine (Origin.below h.base (.single hd) ?_ (hout.origin v hv)).2
    rintro rfl
    exact h.base.touring.not_dominates_idom hd .refl

theorem AllRenamed.origin_of_resolved (hc : c ∈ t.preorder) (ha : a ∈ r.insts c) (hlocal : isLocalIn r a = true)
    (hv : s.resolved.lookup a = some v) : Origin r t g₀ c (r.insts c) v := by
  obtain ⟨front, back, f, f', hsplit, ⟨n, as, rest, hstep⟩, hf⟩ := h.exists_step_of_mem hc ha
  have hall : ∀ w, Origin r t g₀ c front w → Origin r t g₀ c (r.insts c) w := by
    intro w hw
    rw [hsplit]
    exact hw.mono _
  rw [isLocalIn_eq hstep.built] at hlocal
  have hleaves := hstep.leaves
  unfold Leaves at hleaves
  obtain ⟨slot, hinst⟩ | ⟨slot, x, hinst⟩ := Inst.local_cases (h.base.raw.admits a n hstep.built).fits hlocal
  · rw [hinst] at hleaves
    obtain ⟨-, w, hget, -, hleft⟩ := hleaves
    obtain rfl : w = v := by simpa [hleft.resolved] using hv
    refine hall w (hf.origin w ?_)
    have hmem := List.mem_of_getElem? hget
    simp [hstep.frame, hmem]
  · rw [hinst] at hleaves
    obtain ⟨-, w, has, hleft⟩ := hleaves
    obtain rfl : w = v := by simpa [hleft.resolved] using hv
    exact hall w (hf.origin w (by simp [hstep.frame, has]))

end Frames

/-! ## Agreement -/

def Same (x y : Option Datum) : Prop := ∃ d, x = some d ∧ y = some d

/-- The two runs agree at a point of the block `b` with the frame `f`: live definitions in slots have the values of
the variables, and what an earlier instruction stands for has the value that it gave. A slot holds a dead phi only
if the variable got its value from that phi. -/
structure Agrees (r : FlowGraph) (t : Tour) (g₀ : FlowGraph) (s : Names) (D : List InstId) (null : InstId) (b : BlockId)
    (done : List InstId) (f : Frame) (σ : Locals) (τ : Values) (ρ : Sources) : Prop where
  slots : ∀ k v, k < r.parameterCount + r.localCount → f[k]? = some v → v ∉ D → Same (σ.slots k) (τ v)
  values : ∀ a, Scope r t b done a → isLocalIn r a = false → Same (σ.latest a) (τ a)
  locals : ∀ a v, Scope r t b done a → isLocalIn r a = true → s.resolved.lookup a = some v →
    Same (σ.latest a) (τ v) ∧ Origin r t g₀ b done v
  null : τ null = some .null
  sources : ∀ k < r.parameterCount + r.localCount, ∃ v, f[k]? = some v ∧
    ((ρ k = some v ∧ ∃ c, v ∈ phisOf g₀ c) ∨ ρ k = none ∧ v ∉ D)

namespace Agrees

theorem operand (hA : Agrees r t g₀ s D null b done f σ τ ρ) (ha : Scope r t b done a) (hv : resolve r s a = some v) :
    Same (σ.latest a) (τ v) := by
  unfold resolve at hv
  split at hv
  case isTrue hlocal => exact (hA.locals a v ha hlocal hv).1
  case isFalse hlocal =>
    obtain rfl : a = v := by simpa using hv
    exact hA.values a ha (by simpa using hlocal)

theorem advance (hA : Agrees r t g₀ s D null b done f σ τ ρ) (h : Base r t g₀) (hi : i ∈ r.insts b) (hnew : i ∉ done)
    (hnull : null ≠ i) (hlatest : ∀ a, a ≠ i → σ'.latest a = σ.latest a) (hvalues : ∀ w, w ≠ i → τ' w = τ w)
    (hslots : ∀ k v, k < r.parameterCount + r.localCount → f'[k]? = some v → v ∉ D → Same (σ'.slots k) (τ' v))
    (hvalue : isLocalIn r i = false → Same (σ'.latest i) (τ' i))
    (hlocal : ∀ v, isLocalIn r i = true → s.resolved.lookup i = some v →
      Same (σ'.latest i) (τ' v) ∧ Origin r t g₀ b done v)
    (hsources : ∀ k < r.parameterCount + r.localCount, ∃ v, f'[k]? = some v ∧
      ((ρ' k = some v ∧ ∃ c, v ∈ phisOf g₀ c) ∨ ρ' k = none ∧ v ∉ D)) :
    Agrees r t g₀ s D null b (done ++ [i]) f' σ' τ' ρ' := by
  have hscope : ∀ a, Scope r t b (done ++ [i]) a → a = i ∨ a ≠ i ∧ Scope r t b done a := by
    rintro a (ha | ha)
    · obtain ha | ha := List.mem_append.mp ha
      · exact .inr ⟨fun heq => hnew (heq ▸ ha), .inl ha⟩
      · exact .inl (List.mem_singleton.mp ha)
    · exact .inr ⟨Scope.ne h.raw (.inr ha) hi hnew, .inr ha⟩
  refine ⟨hslots, fun a ha hloc => ?_, fun a v ha hloc hv => ?_, ?_, hsources⟩
  · obtain rfl | ⟨hne, ha⟩ := hscope a ha
    · exact hvalue hloc
    · rw [hlatest a hne, hvalues a hne]
      exact hA.values a ha hloc
  · obtain rfl | ⟨hne, ha⟩ := hscope a ha
    · exact ⟨(hlocal v hloc hv).1, (hlocal v hloc hv).2.mono [a]⟩
    · obtain ⟨hsame, horigin⟩ := hA.locals a v ha hloc hv
      rw [hlatest a hne, hvalues v (horigin.ne h hi hnew)]
      exact ⟨hsame, horigin.mono [i]⟩
  · rw [hvalues null hnull, hA.null]

end Agrees

section Runs

variable (h : AllRenamed r t g₀ init s g out) (hf : Finished t g L D null g')

include h hf

theorem null_ne (hi : i ∈ r.insts b) : null ≠ i := by
  rintro rfl
  have hmem := hf.null.1
  rw [h.progress.outline.initialDefinitions] at hmem
  exact absurd (h.base.initial null hmem).1 (Nat.not_le.mpr (h.lt_of_mem hi))

theorem not_mem_dead_of_lives (hl : Lives g₀ g v) : v ∉ D := by
  intro hv
  obtain ⟨⟨c, hc⟩, hdead⟩ := (hf.gone v).mp hv
  rw [h.phisOf_eq] at hc
  exact hdead (mem_live_of_lives h hf hl hc)

theorem Agrees.step (hA : Agrees r t g₀ s D null b done f σ τ ρ) (hstocked : Stocked r t g₀ g b done f)
    (hstep : Step r g₀ s g i f f') (hi : i ∈ r.insts b) (hnew : i ∉ done)
    (hscope : ∀ (n : Node), r.nodes[i.index]? = some n → ∀ a ∈ n.inst.args, Scope r t b done a)
    (hvalues : ∀ w, w ≠ i → τ' w = τ w) (hvalue : isLocalIn r i = false → τ' i = some (.outcome i visit)) :
    Agrees r t g₀ s D null b (done ++ [i]) f' (Locals.exec r visit σ i) τ' (Sources.exec r ρ i) := by
  obtain ⟨n, as, rest, hstep⟩ := hstep
  have hrest : ∀ k < r.parameterCount + r.localCount, f[k]? = rest[k]? := by
    intro k hk
    rw [hstep.frame, List.append_assoc, List.getElem?_append_left (Nat.lt_of_lt_of_le hk hstep.room)]
  have hkept : ∀ k v, k < r.parameterCount + r.localCount → rest[k]? = some v → τ' v = τ v := by
    intro k v hk hv
    refine hvalues v (Origin.ne h.base (hstocked.origin v ?_) hi hnew)
    rw [← hrest k hk] at hv
    exact List.mem_of_getElem? hv
  have hlocal : isLocalIn r i = n.inst.isLocal := isLocalIn_eq hstep.built
  have hleaves := hstep.leaves
  unfold Leaves at hleaves
  split at hleaves
  case h_1 slot a hinst =>
    obtain ⟨hslot, v, rfl, hleft⟩ := hleaves
    have hinputs := hstep.inputs
    rw [hinst, Inst.args, List.forall₂_cons] at hinputs
    have hsame : Same (σ.latest a) (τ v) :=
      hA.operand (hscope n hstep.built a (by simp [hinst, Inst.args])) hinputs.1
    have hv : v ∈ f := by simp [hstep.frame]
    have horigin : Origin r t g₀ b done v := hstocked.origin v hv
    have hroom : r.parameterCount + r.localCount ≤ (rest ++ n.inst.arguments).length := by
      rw [List.length_append]
      exact Nat.le_add_right_of_le hstep.room
    have hlives : v ∉ D :=
      not_mem_dead_of_lives h hf ((hstep.frame ▸ hstocked).lives_of_mem hroom List.mem_cons_self)
    have hexec : Locals.exec r visit σ i =
        ⟨Function.update σ.slots slot (σ.latest a), Function.update σ.latest i (σ.latest a)⟩ := by
      simp [Locals.exec, hstep.built, hinst]
    have hsources : Sources.exec r ρ i = Function.update ρ slot none := by
      simp [Sources.exec, hstep.built, hinst]
    have hget : ∀ k < r.parameterCount + r.localCount, f'[k]? = if slot = k then some v else rest[k]? := by
      intro k hk
      have hlt : k < rest.length := Nat.lt_of_lt_of_le hk hstep.room
      rw [hleft.frame, List.getElem?_append_left (by simpa using hlt)]
      by_cases hks : slot = k
      · rw [if_pos hks, hks, List.getElem?_set_self hlt]
      · rw [if_neg hks, List.getElem?_set_ne hks]
    rw [hexec, hsources]
    refine hA.advance h.base hi hnew (null_ne h hf hi) (fun a hne => Function.update_of_ne hne _ _) hvalues ?_ ?_ ?_ ?_
    · intro k w hk hw hdead
      rw [hget k hk] at hw
      show Same (Function.update σ.slots slot (σ.latest a) k) (τ' w)
      by_cases hks : slot = k
      · obtain rfl : v = w := by simpa [hks] using hw
        rw [hks, Function.update_self, hvalues v (horigin.ne h.base hi hnew)]
        exact hsame
      · rw [if_neg hks] at hw
        rw [Function.update_of_ne (Ne.symm hks), hkept k w hk hw]
        exact hA.slots k w hk (hrest k hk ▸ hw) hdead
    · intro hnot
      rw [hlocal, hinst] at hnot
      cases hnot
    · intro w _ hw
      obtain rfl : v = w := by simpa [hleft.resolved] using hw
      refine ⟨?_, horigin⟩
      show Same (Function.update σ.latest i (σ.latest a) i) (τ' v)
      rwa [Function.update_self, hvalues v (horigin.ne h.base hi hnew)]
    · intro k hk
      rw [hget k hk]
      by_cases hks : slot = k
      · exact ⟨v, if_pos hks, .inr ⟨by rw [hks, Function.update_self], hlives⟩⟩
      · rw [if_neg hks, Function.update_of_ne (Ne.symm hks), ← hrest k hk]
        exact hA.sources k hk
  case h_2 slot hinst =>
    obtain ⟨hslot, v, hv, hlives, hleft⟩ := hleaves
    have hdead : v ∉ D := not_mem_dead_of_lives h hf hlives
    have hsame : Same (σ.slots slot) (τ v) := hA.slots slot v hslot (hrest slot hslot ▸ hv) hdead
    have hexec : Locals.exec r visit σ i = { σ with latest := Function.update σ.latest i (σ.slots slot) } := by
      simp [Locals.exec, hstep.built, hinst]
    have hsources : Sources.exec r ρ i = ρ := by simp [Sources.exec, hstep.built, hinst]
    have hget : ∀ k < r.parameterCount + r.localCount, f'[k]? = rest[k]? := by
      intro k hk
      rw [hleft.frame, List.getElem?_append_left (Nat.lt_of_lt_of_le hk hstep.room)]
    rw [hexec, hsources]
    refine hA.advance h.base hi hnew (null_ne h hf hi) (fun a hne => Function.update_of_ne hne _ _) hvalues ?_ ?_ ?_ ?_
    · intro k w hk hw hdead
      rw [hget k hk] at hw
      rw [hkept k w hk hw]
      exact hA.slots k w hk (hrest k hk ▸ hw) hdead
    · intro hnot
      rw [hlocal, hinst] at hnot
      cases hnot
    · intro w _ hw
      obtain rfl : v = w := by simpa [hleft.resolved] using hw
      refine ⟨?_, hstocked.origin v (List.mem_of_getElem? (hrest slot hslot ▸ hv))⟩
      show Same (Function.update σ.latest i (σ.slots slot) i) (τ' v)
      rwa [Function.update_self, hkept slot v hslot hv]
    · intro k hk
      rw [hget k hk, ← hrest k hk]
      exact hA.sources k hk
  case h_3 hstore hload =>
    have hnot : isLocalIn r i = false := by
      rw [hlocal, ← Bool.not_eq_true]
      intro hloc
      obtain ⟨slot, hinst⟩ | ⟨slot, v, hinst⟩ := Inst.local_cases (h.base.raw.admits i n hstep.built).fits hloc
      · exact hload slot hinst
      · exact hstore slot v hinst
    have hexec : Locals.exec r visit σ i =
      { σ with latest := Function.update σ.latest i (some (.outcome i visit)) } := by
      unfold Locals.exec
      rw [hstep.built, Option.map_some]
      split
      case h_1 slot a hinst => exact absurd (Option.some_inj.mp hinst) (hstore slot a)
      case h_2 slot hinst => exact absurd (Option.some_inj.mp hinst) (hload slot)
      case h_3 => rfl
    have hsources : Sources.exec r ρ i = ρ := by
      unfold Sources.exec
      rw [hstep.built, Option.map_some]
      split
      case h_1 slot a hinst => exact absurd (Option.some_inj.mp hinst) (hstore slot a)
      case h_2 => rfl
    have hget : ∀ k < r.parameterCount + r.localCount, f'[k]? = rest[k]? := by
      intro k hk
      rw [hleaves, List.getElem?_append_left (Nat.lt_of_lt_of_le hk hstep.room)]
    rw [hexec, hsources]
    refine hA.advance h.base hi hnew (null_ne h hf hi) (fun a hne => Function.update_of_ne hne _ _) hvalues ?_ ?_ ?_ ?_
    · intro k w hk hw hdead
      rw [hget k hk] at hw
      rw [hkept k w hk hw]
      exact hA.slots k w hk (hrest k hk ▸ hw) hdead
    · intro _
      exact ⟨.outcome i visit, Function.update_self .., hvalue hnot⟩
    · intro v hloc
      rw [hnot] at hloc
      cases hloc
    · intro k hk
      rw [hget k hk, ← hrest k hk]
      exact hA.sources k hk

/-! ## Along a block -/

/-- Every input of an instruction that control comes to is made earlier in the block, or in another block that every
path goes through. -/
def InputsPrecede (r : FlowGraph) : Prop :=
  ∀ (b : BlockId) (front : List InstId) (i : InstId) (back : List InstId), r.Reachable b →
    r.insts b = front ++ i :: back → ∀ n : Node, r.nodes[i.index]? = some n → ∀ a ∈ n.inst.args,
      a ∈ front ∨ ∃ c, r.OnEveryPath c b ∧ c ≠ b ∧ a ∈ r.insts c

omit hf in
theorem scope_of_precedes (hpre : InputsPrecede r) {path : List BlockId} (hpath : r.IsPath (b :: path))
    {front back : List InstId} (hsplit : r.insts b = front ++ i :: back) {n : Node} (hn : r.nodes[i.index]? = some n)
    (ha : a ∈ n.inst.args) : Scope r t b front a := by
  have ht := h.base.touring
  have hb : b ∈ t.preorder := mem_preorder_of_isPath ht hpath
  refine (hpre b front i back (ht.mem_preorder_iff_reachable.mp hb) hsplit n hn a ha).imp_right ?_
  rintro ⟨c, hc, hne, hac⟩
  have hcmem : c ∈ t.preorder :=
    ht.mem_preorder_iff_reachable.mpr (hpath.reachable_of_mem (List.mem_cons_of_mem b (hc path hpath)))
  exact ⟨c, dominates_of_onEveryPath ht hc hcmem hb (h.base.ne_graphEntry (i := i) (by simp [hsplit])), hne, hac⟩

theorem insts_eq_filter (b : BlockId) : g'.insts b = (r.insts b).filter (· ∈ g'.insts b) := by
  rw [insts_finished hf]
  exact (filter_mem_of_sublist (h.progress.sub b) (h.base.raw.layout.nodup b)).symm

theorem mem_insts_of_not_local (hi : i ∈ r.insts b) (hlocal : isLocalIn r i = false) : i ∈ g'.insts b := by
  obtain ⟨n, hn⟩ := h.base.raw.exists_node hi
  rw [insts_finished hf]
  refine (mem_insts_iff h.base h.progress).mpr ⟨hi, fun hnone => ?_⟩
  rw [isLocalIn_eq hn, (h.progress.gone i n hn hnone).2] at hlocal
  cases hlocal

theorem Agrees.before (hpre : InputsPrecede r) {path : List BlockId} (hpath : r.IsPath (b :: path)) {f₀ : Frame}
    (hstocked : Stocked r t g₀ g b [] f₀)
    (hA : Agrees r t g₀ s D null b [] f₀ ((localsRun r).before path b []) ((valuesRun g').before path b [])
      ((sourcesRun r p).before path b [])) {rest : List InstId} (hsplit : r.insts b = done ++ rest)
    (hruns : Runs r g₀ s g done f₀ f) :
    Stocked r t g₀ g b done f ∧ Agrees r t g₀ s D null b done f ((localsRun r).before path b done)
      ((valuesRun g').before path b (done.filter (· ∈ g'.insts b))) ((sourcesRun r p).before path b done) := by
  refine ⟨by simpa using hruns.stocked h.base hstocked, ?_⟩
  induction done using List.reverseRecOn generalizing f rest with
  | nil =>
    obtain ⟨⟩ := hruns
    exact hA
  | append_singleton done i ih =>
    obtain ⟨f₁, hfront, hlast⟩ := Runs.append.mp hruns
    obtain _ | ⟨hstep, ⟨⟩⟩ := hlast
    have hsplit' : r.insts b = done ++ i :: rest := by rw [hsplit, List.append_assoc, List.singleton_append]
    have hi : i ∈ r.insts b := by simp [hsplit']
    have hnew : i ∉ done := by
      have hnodup : (done ++ i :: rest).Nodup := hsplit' ▸ h.base.raw.layout.nodup b
      exact fun hmem => (List.nodup_append.mp hnodup).2.2 i hmem i List.mem_cons_self rfl
    have hstocked₁ : Stocked r t g₀ g b done f₁ := by simpa using hfront.stocked h.base hstocked
    rw [Machine.before_concat, Machine.before_concat, List.filter_append]
    refine (ih hsplit' hfront).step h hf hstocked₁ hstep hi hnew
      (fun n hn a ha => scope_of_precedes h hpre hpath hsplit' hn ha) (fun w hw => ?_) (fun hlocal => ?_)
    · by_cases hmem : i ∈ g'.insts b
      · rw [List.filter_singleton, decide_eq_true hmem, cond_true, Machine.before_concat]
        exact Function.update_of_ne hw _ _
      · rw [List.filter_singleton, decide_eq_false hmem, cond_false, List.append_nil]
    · rw [List.filter_singleton, decide_eq_true (mem_insts_of_not_local h hf hi hlocal), cond_true,
        Machine.before_concat]
      exact Function.update_self ..

/-! ## Along an edge -/

omit h hf in
/-- A variable that some phi stands for is held by such a phi and gets its value from it, any other stays. -/
theorem enter_cases (phis : List InstId) (ρ : Sources) (hk : k < f.length) :
    (∃ phi ∈ phis, slotOf g₀ phi = k ∧ (enter g₀ phis f)[k]? = some phi ∧ Sources.enter g₀ phis ρ k = some phi) ∨
      ((∀ phi ∈ phis, slotOf g₀ phi ≠ k) ∧ (enter g₀ phis f)[k]? = f[k]? ∧ Sources.enter g₀ phis ρ k = ρ k) := by
  unfold enter Sources.enter
  induction phis generalizing f ρ with
  | nil => exact .inr ⟨by simp, rfl, rfl⟩
  | cons phi phis ih =>
    rw [List.foldl_cons, List.foldl_cons]
    have hk' : k < (f.set (slotOf g₀ phi) phi).length := by rwa [List.length_set]
    obtain ⟨phi', hmem, hslot, hget⟩ | ⟨hnone, hget, hsource⟩ := ih (Function.update ρ (slotOf g₀ phi) (some phi)) hk'
    · exact .inl ⟨phi', List.mem_cons_of_mem phi hmem, hslot, hget⟩
    · by_cases hphi : slotOf g₀ phi = k
      · refine .inl ⟨phi, List.mem_cons_self, hphi, ?_, ?_⟩
        · rw [hget, hphi, List.getElem?_set_self hk]
        · rw [hsource, hphi, Function.update_self]
      · refine .inr ⟨List.forall_mem_cons.mpr ⟨hphi, hnone⟩, ?_, ?_⟩
        · rw [hget, List.getElem?_set_ne hphi]
        · rw [hsource, Function.update_of_ne (Ne.symm hphi)]

omit h hf in
theorem sources_enter_eq (hp : PhisPlaced r t p) (hext : Extends p g₀) (b : BlockId) (ρ : Sources) :
    Sources.enter p (phisOf p b) ρ = Sources.enter g₀ (phisOf g₀ b) ρ := by
  rw [hext.phisOf b]
  refine List.foldl_ext _ _ _ fun ρ phi hphi => ?_
  have hnode := (hp.base.phi_of_mem hphi).2.2.2.2
  have hslot : slotOf g₀ phi = slotOf p phi := by
    unfold slotOf
    rw [hnode, hext.nodes phi _ hnode]
  rw [hslot]

theorem enter_of_not_phi (hb : b ∈ t.preorder) (hv : v ∉ phisOf g₀ b) : Values.enter g' c b τ v = τ v :=
  if_neg fun hphi => hv ((mem_phisOf_finished h hf hb).mp hphi.1).1

theorem enter_of_phi {phi : InstId} (hphi : phi ∈ phisOf g₀ b) (hlive : phi ∈ L) (hpred : c ∈ t.preds b) :
    ∃ v, (out c)[slotOf g₀ phi]? = some v ∧ v ∉ D ∧ Values.enter g' c b τ phi = τ v := by
  obtain ⟨-, hb, hjoin, -, -⟩ := h.base.phi_of_mem hphi
  have hcmem := h.base.touring.known b c hpred
  obtain ⟨hne, -⟩ := goto_of_mem_preds h.base.raw h.base.catchEntries h.base.touring h.base.split hjoin hpred
  obtain ⟨j, hj, hindex⟩ : ∃ j, (t.preds b)[j]? = some c ∧ (t.preds b).findIdx? (· == c) = some j := by
    cases hidx : (t.preds b).findIdx? (· == c) with
    | none =>
      rw [List.findIdx?_eq_none_iff] at hidx
      simpa using hidx c hpred
    | some j =>
      obtain ⟨hlt, hat, -⟩ := List.findIdx?_eq_some_iff_getElem.mp hidx
      exact ⟨j, by rw [List.getElem?_eq_getElem hlt, beq_iff_eq.mp hat], rfl⟩
  obtain ⟨v, hv, hinput⟩ := (h.block c hcmem hne).filled b phi j hphi hj
  refine ⟨v, hv, fun hdead => ?_, ?_⟩
  · obtain ⟨⟨x, hx⟩, hnot⟩ := (hf.gone v).mp hdead
    rw [h.phisOf_eq] at hx
    obtain ⟨n, hn, hev⟩ := h.progress.nodes v _ (h.base.phi_of_mem hx).2.2.2.2
    exact hnot (hf.closed phi hlive j v hinput (isPhiIn_iff.mpr ⟨n, hn, hev.isPhi⟩))
  · have hpredIndex : g'.predIndex b c = .ok (some j) := by
      unfold FlowGraph.predIndex
      rw [preds_finished h hf hb, ← hindex]
      rfl
    rw [Values.enter, if_pos ⟨(mem_phisOf_finished h hf hb).mpr ⟨hphi, hlive⟩, (hf.live phi).mp hlive⟩, hpredIndex]
    show (inputOf g' phi j).bind τ = τ v
    rw [inputOf_finished hf, hinput, Option.bind_some]

/-- The runs agree at the start of a block if they agree at the end of the block that control comes from. -/
theorem Agrees.enter (hp : PhisPlaced r t p) (hext : Extends p g₀) (hc : c ≠ FlowGraph.graphEntry)
    (hpred : c ∈ t.preds b) (hA : Agrees r t g₀ s D null c (r.insts c) (out c) σ τ ρ) :
    Agrees r t g₀ s D null b [] (enter g₀ (phisOf g₀ b) (into t init out b)) σ (Values.enter g' c b τ)
      (Sources.enter g₀ (phisOf g₀ b) ρ) := by
  have ht := h.base.touring
  obtain ⟨hcmem, hnext⟩ := ht.mem_preds_iff.mp hpred
  have hb : b ∈ t.preorder := ht.mem_of_edge hcmem hnext
  have hbne : b ≠ FlowGraph.graphEntry := (h.base.raw.handle_of_mem_next h.base.catchEntries hnext).2
  have hroom := h.room hb hbne
  -- What was made in a block above was made when control left the predecessor.
  have hscope : ∀ a, Scope r t b [] a → ∃ x, Dominates t x b ∧ x ≠ b ∧ a ∈ r.insts x ∧ Scope r t c (r.insts c) a := by
    rintro a (ha | ⟨x, hx, hne, ha⟩)
    · cases ha
    · refine ⟨x, hx, hne, ha, ?_⟩
      by_cases hxc : x = c
      · exact .inl (hxc ▸ ha)
      · exact .inr ⟨x, hx.pred ht hne hpred, hxc, ha⟩
  have hstays : ∀ k, k < r.parameterCount + r.localCount → (∀ phi ∈ phisOf g₀ b, slotOf g₀ phi ≠ k) →
      (out c)[k]? = (into t init out b)[k]? := fun k hk hnone =>
    h.getElem?_pred hp hext hk (fun ⟨phi, hphi, hslot⟩ => hnone phi hphi hslot) hpred hc
  refine ⟨?_, ?_, ?_, ?_, ?_⟩
  · intro k v hk hv hdead
    obtain ⟨phi, hphi, hslot, hget, -⟩ | ⟨hnone, hget, -⟩ :=
      @enter_cases g₀ _ _ (phisOf g₀ b) ρ (Nat.lt_of_lt_of_le hk hroom)
    · obtain rfl : phi = v := by simpa [hget] using hv
      have hlive : phi ∈ L := by
        by_contra hnot
        exact hdead ((hf.gone phi).mpr ⟨⟨b, h.phisOf_eq b ▸ hphi⟩, hnot⟩)
      obtain ⟨w, hw, hwdead, henter⟩ := enter_of_phi h hf (τ := τ) hphi hlive hpred
      rw [henter]
      exact hA.slots k w hk (hslot ▸ hw) hwdead
    · rw [hget] at hv
      rw [enter_of_not_phi h hf hb (h.not_mem_phisOf_into hb hbne (List.mem_of_getElem? hv))]
      exact hA.slots k v hk (hstays k hk hnone ▸ hv) hdead
  · intro a ha hlocal
    obtain ⟨x, -, -, hax, hac⟩ := hscope a ha
    rw [enter_of_not_phi h hf hb (h.base.not_mem_phisOf (h.lt_of_mem hax))]
    exact hA.values a hac hlocal
  · intro a v ha hlocal hv
    obtain ⟨x, hx, hne, hax, hac⟩ := hscope a ha
    have hxmem : x ∈ t.preorder := by
      obtain rfl | ⟨y, hy, hyx⟩ := hx.cases_tail
      · exact hb
      · exact (ht.mem_of_idom? hyx).2
    obtain ⟨horigin, hphi⟩ := Origin.below h.base hx hne (h.origin_of_resolved hxmem hax hlocal hv)
    rw [enter_of_not_phi h hf hb hphi]
    exact ⟨(hA.locals a v hac hlocal hv).1, horigin⟩
  · have hnull := hf.null.1
    rw [h.progress.outline.initialDefinitions] at hnull
    rw [enter_of_not_phi h hf hb fun hphi => h.base.phi_not_initial hphi hnull]
    exact hA.null
  · intro k hk
    obtain ⟨phi, hphi, -, hget, hsource⟩ | ⟨hnone, hget, hsource⟩ :=
      @enter_cases g₀ _ _ (phisOf g₀ b) ρ (Nat.lt_of_lt_of_le hk hroom)
    · exact ⟨phi, hget, .inl ⟨hsource, b, hphi⟩⟩
    · rw [hget, hsource, ← hstays k hk hnone]
      exact hA.sources k hk

/-! ## From the entry -/

theorem isInitial_finished {d : Inst} (hargs : d.args = []) (hphi : d.isPhi = false) (hv : IsInitial g₀ v d) :
    IsInitial g' v d := by
  obtain ⟨hmem, n, hn, rfl⟩ := hv
  obtain ⟨n₁, hn₁, hev⟩ := h.progress.nodes v n hn
  obtain ⟨e, hinst⟩ := hev.inst_of_not_isPhi hphi
  obtain ⟨n', hn', hinst', -⟩ := hf.nodes v n₁ hn₁
  refine ⟨by rwa [hf.initialDefinitions, h.progress.outline.initialDefinitions], n', hn', ?_⟩
  have hsame : n₁.inst = n.inst := by
    rw [hinst]
    exact (Inst.mapArgs_congr fun k a hk => by simp [hargs] at hk).trans Inst.mapArgs_id
  rw [hinst', hsame]
  split
  · exact Inst.revive_of_not_isPhi hphi
  · rfl

omit hf in
theorem phisOf_normalEntry : phisOf g₀ FlowGraph.normalEntry = [] := by
  refine List.eq_nil_iff_forall_not_mem.mpr fun phi hphi => ?_
  have ht := h.base.touring
  have hpred : FlowGraph.graphEntry ∈ t.preds FlowGraph.normalEntry := by
    refine ht.mem_preds_iff.mpr ⟨List.mem_of_getElem? ht.entry, ?_⟩
    rw [Raw.next_graphEntry h.base.catchEntries]
    exact List.mem_singleton_self _
  exact (goto_of_mem_preds h.base.raw h.base.catchEntries ht h.base.split (h.base.phi_of_mem hphi).2.2.1 hpred).1 rfl

theorem start_of_isInitial {k : Nat} (hv : IsInitial g₀ v (initialInst r k)) :
    Values.start g' v = some (initialDatum r k) := by
  have hinitial : IsInitial g' v (initialInst r k) := by
    refine isInitial_finished h hf ?_ ?_ hv
    · unfold initialInst
      split <;> rfl
    · unfold initialInst
      split <;> rfl
  obtain ⟨hmem, n, hn, hinst⟩ := hinitial
  rw [Values.start, if_pos hmem, hn, Option.map_some, hinst]
  by_cases hk : k < r.parameterCount
  · simp [initialInst, initialDatum, hk]
  · simp [initialInst, initialDatum, hk]

theorem Agrees.start : Agrees r t g₀ s D null FlowGraph.normalEntry []
    (Ssa.enter g₀ (phisOf g₀ FlowGraph.normalEntry) (into t init out FlowGraph.normalEntry)) (localsRun r).start
    (Values.enter g' FlowGraph.graphEntry FlowGraph.normalEntry (.start g'))
    (Sources.enter g₀ (phisOf g₀ FlowGraph.normalEntry) fun _ => none) := by
  have ht := h.base.touring
  have hb : FlowGraph.normalEntry ∈ t.preorder := List.mem_of_getElem? (ht.preorder_one h.base.catchEntries)
  have hnone := phisOf_normalEntry h
  have henter (v : InstId) : Values.enter g' FlowGraph.graphEntry FlowGraph.normalEntry (.start g') v =
    Values.start g' v :=
    enter_of_not_phi h hf hb (by simp [hnone])
  have hscope : ∀ a, ¬ Scope r t FlowGraph.normalEntry [] a := by
    rintro a (ha | ⟨c, hc, hne, ha⟩)
    · cases ha
    · obtain rfl | ⟨d, hd, hdc⟩ := hc.cases_head
      · exact hne rfl
      · rw [ht.idom?_normalEntry h.base.catchEntries, Option.some_inj] at hd
        subst hd
        obtain rfl | ⟨x, hx, -⟩ := hdc.cases_head
        · exact h.base.ne_graphEntry ha rfl
        · rw [ht.idom?_graphEntry] at hx
          cases hx
  have hframe : Ssa.enter g₀ (phisOf g₀ FlowGraph.normalEntry) (into t init out FlowGraph.normalEntry) = init := by
    rw [hnone, into, if_pos rfl]
    rfl
  rw [hframe]
  refine ⟨?_, fun a ha => absurd ha (hscope a), fun a v ha => absurd ha (hscope a), ?_, ?_⟩
  · intro k v hk hv _
    rw [henter, start_of_isInitial h hf (h.starts.holds k v hv)]
    exact ⟨_, rfl, rfl⟩
  · obtain ⟨hmem, n, hn, hinst⟩ := hf.null
    obtain ⟨hmem', n', hn', hinst'⟩ : IsInitial g' null (.constant .null) := by
      obtain ⟨n', hn', hinst', -⟩ := hf.nodes null n hn
      refine ⟨hf.initialDefinitions ▸ hmem, n', hn', ?_⟩
      rw [hinst', hinst]
      split <;> rfl
    rw [henter, Values.start, if_pos hmem', hn', Option.map_some, hinst']
  · intro k hk
    have hlt : k < init.length := by rwa [h.starts.length]
    refine ⟨init[k], List.getElem?_eq_getElem hlt, .inr ⟨by rw [hnone]; rfl, fun hdead => ?_⟩⟩
    obtain ⟨⟨c, hc⟩, -⟩ := (hf.gone _).mp hdead
    rw [h.phisOf_eq] at hc
    exact h.base.phi_not_initial hc (h.starts.holds k _ (List.getElem?_eq_getElem hlt)).1

theorem agrees_of_isPath (hp : PhisPlaced r t p) (hext : Extends p g₀) (hpre : InputsPrecede r) {path : List BlockId}
    (hpath : r.IsPath (b :: path)) :
    Agrees r t g₀ s D null b [] (Ssa.enter g₀ (phisOf g₀ b) (into t init out b)) ((localsRun r).before path b [])
      ((valuesRun g').before path b []) ((sourcesRun r p).before path b []) := by
  induction path generalizing b with
  | nil =>
    obtain _ | ⟨hedge, -⟩ := hpath
    obtain rfl : b = FlowGraph.normalEntry := by
      have hmem : b ∈ r.next FlowGraph.graphEntry := hedge
      rwa [Raw.next_graphEntry h.base.catchEntries, List.mem_singleton] at hmem
    have hstart := Agrees.start h hf
    rw [← sources_enter_eq hp hext] at hstart
    exact hstart
  | cons c path ih =>
    have hpred := mem_preds_of_isPath h.base.touring hpath
    obtain _ | ⟨-, hpath'⟩ := hpath
    have hcmem := mem_preorder_of_isPath h.base.touring hpath'
    have hc : c ≠ FlowGraph.graphEntry := by
      obtain _ | ⟨hedge, -⟩ := hpath'
      exact (h.base.raw.handle_of_mem_next h.base.catchEntries hedge).2
    have hstart : Stocked r t g₀ g c [] (Ssa.enter g₀ (phisOf g₀ c) (into t init out c)) :=
      (h.stocked hcmem hc).1.enter h.base fun _ hphi => hphi
    obtain ⟨-, hend⟩ := (ih hpath').before h hf hpre hpath' hstart (List.append_nil _).symm (h.block c hcmem hc).runs
    rw [← insts_eq_filter h hf] at hend
    have hnext := hend.enter h hf hp hext hc hpred
    rw [← sources_enter_eq hp hext] at hnext
    exact hnext

end Runs

/-! ## The main statement -/

def argsOf (g : FlowGraph) (i : InstId) : List InstId := ((g.nodes[i.index]?).map fun n => n.inst.args).getD []

/-- The instruction `i`, which comes after `front` in the block `b` of the graph `r` and after `front'` in that of `g`,
finds the same in both at the end of a path. Its inputs have the same values. What it resumes with for a variable has
the value of the variable, or is null if the variable got its value from one of the phis of `p` that are dead in `g`. -/
structure ReadsKept (r p g : FlowGraph) (path : List BlockId) (b : BlockId) (i : InstId) (front front' : List InstId) :
    Prop where
  inputs : List.Forall₂ (fun a d => Same (((localsRun r).before path b front).latest a)
    ((valuesRun g).before path b front' d)) (argsOf r i) (argsOf g i)
  resumes : ∀ (n : Node) (e : Environment), g.nodes[i.index]? = some n → n.env = some e →
    ∀ k < r.parameterCount + r.localCount, ∃ d, e.values[k]? = some d ∧
      if ((sourcesRun r p).before path b front k).any fun phi => !aliveIn g phi then
        (valuesRun g).before path b front' d = some .null
      else Same (((localsRun r).before path b front).slots k) ((valuesRun g).before path b front' d)

section Kept

variable (h : AllRenamed r t g₀ init s g out) (hf : Finished t g L D null g') {front : List InstId}

include h hf

omit h in
theorem inputs_kept (hA : Agrees r t g₀ s D null b front f σ τ ρ) (hstep : Step r g₀ s g i f f')
    (hscope : ∀ n : Node, r.nodes[i.index]? = some n → ∀ a ∈ n.inst.args, Scope r t b front a) :
    List.Forall₂ (fun a d => Same (σ.latest a) (τ d)) (argsOf r i) (argsOf g' i) := by
  obtain ⟨n, as, rest, hstep⟩ := hstep
  obtain ⟨n₁, hn₁, hinst, -⟩ := hstep.renamed
  obtain ⟨n', hn', hinst', -⟩ := hf.nodes i n₁ hn₁
  have hargs : argsOf g' i = as := by
    rw [argsOf, hn', Option.map_some, Option.getD_some, hinst']
    split
    · rw [Inst.args_revive, hinst, Inst.args_withArgs hstep.inputs.length_eq]
    · rw [hinst, Inst.args_withArgs hstep.inputs.length_eq]
  rw [hargs, argsOf, hstep.built, Option.map_some, Option.getD_some]
  refine (List.forall₂_iff_get.mpr ⟨hstep.inputs.length_eq, fun j hj hj' => ?_⟩)
  exact hA.operand (hscope n hstep.built _ (List.get_mem ..)) ((List.forall₂_iff_get.mp hstep.inputs).2 j hj hj')

theorem resumes_kept (hA : Agrees r t g₀ s D null b front f σ τ ρ) (hb : b ∈ t.preorder) (hi : i ∈ g'.insts b)
    (hstep : Step r g₀ s g i f f') {n : Node} {e : Environment} (hn : g'.nodes[i.index]? = some n) (he : n.env = some e)
    (hk : k < r.parameterCount + r.localCount) : ∃ d, e.values[k]? = some d ∧
      if (ρ k).any fun phi => !aliveIn g' phi then τ d = some .null else Same (σ.slots k) (τ d) := by
  obtain ⟨n₀, as, rest, hstep⟩ := hstep
  obtain ⟨n₁, hn₁, -, henv⟩ := hstep.renamed
  obtain ⟨v, hv, hsource⟩ := hA.sources k hk
  have hrest : rest[k]? = some v := by
    rwa [hstep.frame, List.append_assoc, List.getElem?_append_left (Nat.lt_of_lt_of_le hk hstep.room)] at hv
  have hresume : resumeOf g i k = some v := by
    rw [resumeOf, hn₁, Option.bind_some, Node.envValues, henv]
    unfold resumeAt
    split
    · exact hv
    · split
      · exact hrest
      case isFalse hdeopt hbranch =>
        -- Without an environment at the end of renaming there is none now.
        obtain ⟨n₂, hn₂, -, -, hsame, -⟩ := hf.nodes i n₁ hn₁
        obtain rfl : n = n₂ := by simpa [hn] using hn₂
        rw [resumeAt, if_neg hdeopt, if_neg hbranch] at henv
        simp [he, henv] at hsame
  refine ⟨if v ∈ D then null else v, ?_, ?_⟩
  · have hfinal := hf.envs b i k hb (insts_finished hf ▸ hi)
    rwa [hresume, resumeOf, hn, Option.bind_some, Node.envValues, he] at hfinal
  · have hdead : (ρ k).any (fun phi => !aliveIn g' phi) = true ↔ v ∈ D := by
      obtain ⟨hphi, c, hc⟩ | ⟨hnone, hlive⟩ := hsource
      · rw [hphi, Option.any_some, Bool.not_eq_true', ← Bool.not_eq_true, ← hf.live, hf.gone]
        exact ⟨fun hnot => ⟨⟨c, h.phisOf_eq c ▸ hc⟩, hnot⟩, fun hgone => hgone.2⟩
      · simp [hnone, hlive]
    by_cases hmem : v ∈ D
    · rw [if_pos (hdead.mpr hmem), if_pos hmem]
      exact hA.null
    · rw [if_neg (mt hdead.mp hmem), if_neg hmem]
      exact hA.slots k v hk hv hmem

theorem reads_kept (hp : PhisPlaced r t p) (hext : Extends p g₀) (hpre : InputsPrecede r) {path : List BlockId}
    (hpath : r.IsPath (b :: path)) {back front' back' : List InstId} (hsplit : r.insts b = front ++ i :: back)
    (hsplit' : g'.insts b = front' ++ i :: back') : ReadsKept r p g' path b i front front' := by
  have hb := mem_preorder_of_isPath h.base.touring hpath
  have hne : b ≠ FlowGraph.graphEntry := h.base.ne_graphEntry (i := i) (by simp [hsplit])
  have hruns := (h.block b hb hne).runs
  rw [hsplit] at hruns
  obtain ⟨f, hfront, hback⟩ := Runs.append.mp hruns
  obtain _ | ⟨hstep, -⟩ := hback
  have hstart : Stocked r t g₀ g b [] (enter g₀ (phisOf g₀ b) (into t init out b)) :=
    (h.stocked hb hne).1.enter h.base fun _ hphi => hphi
  obtain ⟨-, hA⟩ := (agrees_of_isPath h hf hp hext hpre hpath).before h hf hpre hpath hstart hsplit hfront
  have hi : i ∈ g'.insts b := by simp [hsplit']
  -- The instructions before `i` that stay are those that come before it in the end.
  have hsame : front.filter (· ∈ g'.insts b) = front' := by
    have hfilter := insts_eq_filter h hf b
    rw [hsplit, List.filter_append, List.filter_cons_of_pos (by simpa using hi)] at hfilter
    have hnodup : (front' ++ i :: back').Nodup := by
      rw [← hsplit', insts_finished hf]
      exact h.progress.layout.nodup b
    obtain ⟨-, hback', hdisjoint⟩ := List.nodup_append.mp hnodup
    have hfront' : i ∉ front' := fun hmem => hdisjoint i hmem i List.mem_cons_self rfl
    exact ((List.append_cons_inj_of_notMem hfront' (List.nodup_cons.mp hback').1).mp
      (hsplit'.symm.trans hfilter)).1.symm
  rw [hsame] at hA
  exact ⟨inputs_kept hf hA hstep fun n hn a ha => scope_of_precedes h hpre hpath hsplit hn ha,
    fun n e hn he k hk => resumes_kept h hf hA hb hi hstep hn he hk⟩

end Kept

/-- Construction keeps every read of a variable: along each path, an instruction that stays finds what it found
before. -/
theorem construct_keeps_reads {b₀ : BlockId} {r g : FlowGraph} (h : Built b₀ r)
    (hok : Ssa.construct.run r = .ok (.ok (), g)) (hpre : InputsPrecede r) :
    ∃ p, placePhis.run r = .ok (.ok (), p) ∧ ∀ path b i front back front' back', r.IsPath (b :: path) →
      r.insts b = front ++ i :: back → g.insts b = front' ++ i :: back' → ReadsKept r p g path b i front front' := by
  obtain ⟨result, g', hrun, hpost⟩ := (gives_construct h.raw.1).exists_ok
  rw [hok, Except.ok.injEq, Prod.mk.injEq] at hrun
  obtain ⟨rfl, rfl⟩ := hrun
  obtain ⟨p, t, g₀, init, s, g₁, out, L, D, null, hplace, hp, hext, hall, hfin⟩ := hpost () rfl
  refine ⟨p, hplace, fun path b i front back front' back' hpath hsplit hsplit' => ?_⟩
  exact reads_kept hall hfin hp hext hpre hpath hsplit hsplit'

/-- Counts one variable up to the parameter, and keeps the parameter in another one that nothing reads. -/
def tallyLoop : List Command :=
  [.joinBlock, .targetBlock, .targetBlock,
    .inst (.constant (.smi 0)), .inst (.storeLocal 1 ⟨0⟩), .inst (.constant (.smi 7)), .inst (.storeLocal 2 ⟨2⟩),
    .inst (.goto ⟨2⟩),
    .appendTo ⟨2⟩, .inst (.loadLocal 1), .inst (.loadLocal 0),
    .inst (.branch (.relational .lt ⟨5⟩ ⟨6⟩ none) ⟨3⟩ ⟨4⟩),
    .appendTo ⟨3⟩, .inst (.loadLocal 1), .inst (.constant (.smi 1)), .inst (.smiOp .add ⟨8⟩ ⟨9⟩),
    .inst (.storeLocal 1 ⟨10⟩), .inst (.loadLocal 0), .inst (.storeLocal 2 ⟨12⟩), .inst (.goto ⟨2⟩),
    .appendTo ⟨4⟩, .inst (.loadLocal 1), .inst (.unary .ret ⟨15⟩)]

/-- Every input in the block is made earlier in it. -/
def inputsEarlier (r : FlowGraph) (b : BlockId) : Bool :=
  (r.insts b).zipIdx.all fun (i, k) => (argsOf r i).all fun a => ((r.insts b).take k).contains a

def tallyLoopHolds (r : FlowGraph) : Bool :=
  match Ssa.construct.run r with
  | .ok (.ok (), g) => r.catchEntries.isEmpty && (r.insts ⟨2⟩ == [⟨5⟩, ⟨6⟩, ⟨7⟩]) && (g.insts ⟨2⟩ == [⟨7⟩]) &&
    (r.next ⟨0⟩).contains ⟨1⟩ && (r.next ⟨1⟩).contains ⟨2⟩ && (r.next ⟨2⟩).contains ⟨3⟩ && (r.next ⟨3⟩).contains ⟨2⟩ &&
    (List.range r.blocks.size).all fun c => inputsEarlier r ⟨c⟩
  | _ => false

theorem inputsPrecede_of_earlier {b₀ : BlockId} (h : Built b₀ r) (hcatch : r.catchEntries = [])
    (hall : ∀ c < r.blocks.size, inputsEarlier r ⟨c⟩ = true) : InputsPrecede r := by
  intro b front i back hb hsplit n hn a ha
  have hraw : Raw r := h.raw.1
  have hlt : b.index < r.blocks.size := by
    obtain rfl | ⟨p, -, hedge⟩ := hb.cases_tail
    · have hentry : FlowGraph.normalEntry.index < r.blocks.size := (Array.getElem?_eq_some_iff.mp hraw.entry).1
      exact Nat.lt_of_succ_lt hentry
    · exact (hraw.handle_of_mem_next hcatch hedge).1
  have hearlier := hall b.index hlt
  simp only [inputsEarlier, List.all_eq_true, Prod.forall, List.contains_iff_mem] at hearlier
  have hat : (i, front.length) ∈ (r.insts ⟨b.index⟩).zipIdx :=
    List.mk_mem_zipIdx_iff_getElem?.mpr (by rw [hsplit]; simp)
  have hread : a ∈ argsOf r i := by rwa [argsOf, hn]
  have hmem := hearlier i front.length hat a hread
  rw [hsplit, List.take_left] at hmem
  exact .inl hmem

/-- On the second way into the loop, the comparison finds what it found before: the sum of the first round and the
parameter. -/
theorem tallyLoop_reads_kept : ∃ b₀ r g p, Built b₀ r ∧
    Command.script tallyLoop FlowGraph.normalEntry (FlowGraph.new "f" 1 2) = some (b₀, r) ∧
    Ssa.construct.run r = .ok (.ok (), g) ∧ InputsPrecede r ∧ placePhis.run r = .ok (.ok (), p) ∧
    r.IsPath [⟨2⟩, ⟨3⟩, ⟨2⟩, ⟨1⟩] ∧ ReadsKept r p g [⟨3⟩, ⟨2⟩, ⟨1⟩] ⟨2⟩ ⟨7⟩ [⟨5⟩, ⟨6⟩] [] := by
  have hcompute : ((Command.script tallyLoop FlowGraph.normalEntry (FlowGraph.new "f" 1 2)).map
      (tallyLoopHolds ·.2)) = some true := by decide +kernel
  obtain ⟨⟨b₀, r⟩, hscript, hholds⟩ := Option.map_eq_some_iff.mp hcompute
  have hstart : Built FlowGraph.normalEntry (FlowGraph.new "f" 1 2) := @Built.start "f" 1 2 none (by decide)
  have hbuilt : Built b₀ r := hstart.script hscript
  obtain ⟨result, g, hrun, -⟩ := (gives_construct hbuilt.raw.1).exists_ok
  unfold tallyLoopHolds at hholds
  rw [hrun] at hholds
  match result with
  | .error e => cases hholds
  | .ok () =>
    simp only [Bool.and_eq_true, List.isEmpty_iff, List.contains_iff_mem, List.all_eq_true, List.mem_range,
      beq_iff_eq] at hholds
    obtain ⟨⟨⟨⟨⟨⟨⟨hcatch, hbefore⟩, hafter⟩, h₁⟩, h₂⟩, h₃⟩, h₄⟩, hearlier⟩ := hholds
    have hpre : InputsPrecede r := inputsPrecede_of_earlier hbuilt hcatch hearlier
    have hpath : r.IsPath [⟨2⟩, ⟨3⟩, ⟨2⟩, ⟨1⟩] := .cons h₄ (.cons h₃ (.cons h₂ (.cons h₁ .nil)))
    obtain ⟨p, hplace, hkept⟩ := construct_keeps_reads hbuilt hrun hpre
    exact ⟨b₀, r, g, p, hbuilt, hscript, hrun, hpre, hplace, hpath,
      hkept _ _ _ _ [] _ [] hpath (by rw [hbefore]; rfl) (by rw [hafter]; rfl)⟩

end Ssa

end Midend

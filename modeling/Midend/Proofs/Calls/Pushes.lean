import Midend.Proofs.Builder

/-! # Where the arguments of a call are pushed

The arguments of a call are pushed one after another, each right behind the value or, where that is elsewhere, at the
end of the block. The call comes behind. Nothing that is built later comes between a value and its push, unless it
pushes the value once more.
-/

namespace Midend

/-! ## The list of a block -/

section Lists

variable {v w p q x : InstId} {vs ps is js front back : List InstId}

theorem Layout.putAfter_append_cons (h : v ∉ front) :
    Layout.putAfter v p (front ++ v :: back) = front ++ v :: p :: back := by
  induction front with
  | nil => simp [Layout.putAfter]
  | cons y front ih =>
    rw [List.mem_cons, not_or] at h
    rw [List.cons_append, Layout.putAfter, if_neg (Ne.symm h.1), ih h.2, List.cons_append]

theorem exists_putAfter (hv : v ∈ is) :
    ∃ front back, is = front ++ v :: back ∧ v ∉ front ∧ Layout.putAfter v p is = front ++ v :: p :: back := by
  obtain ⟨front, back, rfl, hfront⟩ := List.eq_append_cons_of_mem hv
  exact ⟨front, back, rfl, hfront, Layout.putAfter_append_cons hfront⟩

theorem putAfter_append (hv : v ∈ is) : Layout.putAfter v p (is ++ js) = Layout.putAfter v p is ++ js := by
  obtain ⟨front, back, rfl, hfront, hput⟩ := exists_putAfter (p := p) hv
  rw [hput, List.append_assoc, List.cons_append, Layout.putAfter_append_cons hfront, List.append_assoc]
  rfl

theorem putAfter_append_of_notMem (hv : v ∉ is) : Layout.putAfter v p (is ++ js) = is ++ Layout.putAfter v p js := by
  induction is with
  | nil => rfl
  | cons y is ih =>
    rw [List.mem_cons, not_or] at hv
    rw [List.cons_append, Layout.putAfter, if_neg (Ne.symm hv.1), ih hv.2, List.cons_append]

theorem putAfter_comm (hvw : v ≠ w) (hvq : v ≠ q) (hwp : w ≠ p) :
    Layout.putAfter v p (Layout.putAfter w q is) = Layout.putAfter w q (Layout.putAfter v p is) := by
  induction is with
  | nil => rfl
  | cons y is ih =>
    by_cases hv : y = v
    · subst hv
      simp [Layout.putAfter, hvw, hwp.symm]
    · by_cases hw : y = w
      · subst hw
        simp [Layout.putAfter, hvw.symm, hvq.symm]
      · simp [Layout.putAfter, hv, hw, ih]

theorem mem_pushInto : x ∈ pushInto v p is ↔ x = p ∨ x ∈ is := by
  rw [(pushInto_perm v p is).mem_iff, List.mem_cons]

theorem pushInto_of_mem (hv : v ∈ is) : pushInto v p is = Layout.putAfter v p is := if_pos hv

theorem pushInto_of_notMem (hv : v ∉ is) : pushInto v p is = is ++ [p] := if_neg hv

/-- The list with the pushes `ps` of the values `vs`, made in this order. -/
def pushAll : List InstId → List InstId → List InstId → List InstId
  | v :: vs, p :: ps, is => pushAll vs ps (pushInto v p is)
  | _, _, is => is

theorem pushAll_perm (hlen : vs.length = ps.length) : (pushAll vs ps is).Perm (ps ++ is) := by
  induction vs generalizing ps is with
  | nil =>
    obtain rfl := List.length_eq_zero_iff.mp hlen.symm
    exact .refl is
  | cons v vs ih =>
    obtain ⟨p, ps, rfl⟩ := List.exists_cons_of_length_eq_add_one hlen.symm
    exact (ih (by simpa using hlen)).trans (((pushInto_perm v p is).append_left ps).trans List.perm_middle)

theorem mem_pushAll (hlen : vs.length = ps.length) : x ∈ pushAll vs ps is ↔ x ∈ ps ∨ x ∈ is := by
  rw [(pushAll_perm hlen).mem_iff, List.mem_append]

theorem filter_pushAll (hlen : vs.length = ps.length) : (pushAll vs ps is).filter (· ∉ ps) = is.filter (· ∉ ps) := by
  suffices h : ∀ qs, (∀ p ∈ ps, p ∈ qs) → (pushAll vs ps is).filter (· ∉ qs) = is.filter (· ∉ qs) from
    h ps fun _ h => h
  intro qs hqs
  induction vs generalizing ps is with
  | nil =>
    obtain rfl := List.length_eq_zero_iff.mp hlen.symm
    rfl
  | cons v vs ih =>
    obtain ⟨p, ps, rfl⟩ := List.exists_cons_of_length_eq_add_one hlen.symm
    rw [List.forall_mem_cons] at hqs
    rw [pushAll, ih (by simpa using hlen) hqs.2]
    unfold pushInto
    split
    · exact Layout.filter_putAfter (by simpa using hqs.1) _
    · simp [hqs.1]

theorem pushAll_append (hvs : ∀ v ∈ vs, v ∈ is) : pushAll vs ps (is ++ js) = pushAll vs ps is ++ js := by
  induction vs generalizing ps is with
  | nil => simp [pushAll]
  | cons v vs ih =>
    cases ps with
    | nil => simp [pushAll]
    | cons p ps =>
      rw [List.forall_mem_cons] at hvs
      rw [pushAll, pushAll, pushInto_of_mem hvs.1, pushInto_of_mem (List.mem_append_left js hvs.1),
        putAfter_append hvs.1, ← pushInto_of_mem hvs.1]
      exact ih fun u hu => mem_pushInto.mpr (.inr (hvs.2 u hu))

theorem exists_pushAll_append (hjs : ∀ v ∈ vs, v ∉ js) (hps : ∀ v ∈ vs, v ∉ ps) :
    ∃ front back, pushAll vs ps (is ++ js) = front ++ js ++ back := by
  induction vs generalizing ps is js with
  | nil => exact ⟨is, [], by simp [pushAll]⟩
  | cons v vs ih =>
    cases ps with
    | nil => exact ⟨is, [], by simp [pushAll]⟩
    | cons p ps =>
      rw [List.forall_mem_cons] at hjs hps
      have hps' : ∀ u ∈ vs, u ∉ ps := fun u hu hmem => hps.2 u hu (List.mem_cons_of_mem p hmem)
      rw [pushAll]
      by_cases hv : v ∈ is
      · rw [pushInto_of_mem (List.mem_append_left js hv), putAfter_append hv]
        exact ih hjs.2 hps'
      · rw [pushInto_of_notMem (List.mem_append.not.mpr (not_or.mpr ⟨hv, hjs.1⟩)), List.append_assoc]
        have hjs' : ∀ u ∈ vs, u ∉ js ++ [p] := by
          intro u hu
          rw [List.mem_append, List.mem_singleton, not_or]
          exact ⟨hjs.2 u hu, fun hup => hps.2 u hu (hup ▸ List.mem_cons_self)⟩
        obtain ⟨front, back, h⟩ := ih hjs' hps'
        exact ⟨front, p :: back, by rw [h]; simp⟩

theorem pushAll_putAfter (hw : w ∈ is) (hwvs : w ∉ vs) (hwps : w ∉ ps) (hq : q ∉ vs) :
    pushAll vs ps (Layout.putAfter w q is) = Layout.putAfter w q (pushAll vs ps is) := by
  induction vs generalizing ps is with
  | nil => simp [pushAll]
  | cons v vs ih =>
    cases ps with
    | nil => simp [pushAll]
    | cons p ps =>
      rw [List.mem_cons, not_or] at hwvs hwps hq
      rw [pushAll, pushAll, ← ih (mem_pushInto.mpr (.inr hw)) hwvs.2 hwps.2 hq.2]
      congr 1
      by_cases hv : v ∈ is
      · rw [pushInto_of_mem hv, pushInto_of_mem ((Layout.putAfter_perm hw).mem_iff.mpr (List.mem_cons_of_mem q hv)),
          putAfter_comm (Ne.symm hwvs.1) (Ne.symm hq.1) hwps.1]
      · rw [pushInto_of_notMem hv, pushInto_of_notMem, putAfter_append hw]
        rw [(Layout.putAfter_perm hw).mem_iff, List.mem_cons, not_or]
        exact ⟨Ne.symm hq.1, hv⟩

end Lists

/-! ## The code of a call -/

section Emission

variable {g g' r : FlowGraph} {b c : BlockId} {i j v call : InstId} {d e : Inst} {is vs ps old : List InstId}
  {m : Build InstId}

namespace Adds

theorem insts (h : Adds g b d is i g') : g'.insts c = if c = b then is else g.insts c := by
  obtain ⟨rfl, deoptId, next, -, rfl⟩ := h
  exact Layout.insts_place is

theorem size (h : Adds g b d is i g') : g'.nodes.size = g.nodes.size + 1 := by
  obtain ⟨rfl, deoptId, next, -, rfl⟩ := h
  exact FlowGraph.size_built

theorem inst (h : Adds g b d is i g') : g'.inst i = .ok d := by
  obtain ⟨rfl, deoptId, next, -, rfl⟩ := h
  exact FlowGraph.inst_eq_ok.mpr ⟨_, by rw [FlowGraph.nodes_built, if_pos rfl], rfl⟩

theorem kept (h : Adds g b d is i g') (hj : g.inst j = .ok e) : g'.inst j = .ok e := by
  obtain ⟨rfl, deoptId, next, -, rfl⟩ := h
  obtain ⟨n, hn, rfl⟩ := FlowGraph.inst_eq_ok.mp hj
  have hnode : (g.built b d is deoptId next).nodes[j.index]? = _ := FlowGraph.nodes_built j
  rw [if_neg (Raw.ne_nextId hn), hn, Option.map_some] at hnode
  exact FlowGraph.inst_eq_ok.mpr ⟨_, hnode, rfl⟩

end Adds

theorem index_lt_of_inst (h : g.inst i = .ok d) : i.index < g.nodes.size := by
  obtain ⟨n, hn, -⟩ := FlowGraph.inst_eq_ok.mp h
  exact (Array.getElem?_eq_some_iff.mp hn).1

/-- `g` has got the pushes `ps` of the values `vs` in the block `b`. -/
structure Pushing (g : FlowGraph) (b : BlockId) (vs ps : List InstId) (g' : FlowGraph) : Prop where
  raw : Raw g'
  handle : g'.Handle b
  insts : g'.insts b = pushAll vs ps (g.insts b)
  pushes : List.Forall₂ (fun v p => g'.inst p = .ok (.pushArgument v)) vs ps
  fresh : ∀ p ∈ ps, g.nodes.size ≤ p.index
  kept : ∀ j e, g.inst j = .ok e → g'.inst j = .ok e

theorem builds_pushing (hg : Raw g) (hb : g.Handle b) (hvs : ∀ v ∈ vs, v.index < g.nodes.size) :
    Threads False g b (Build.pushArguments vs) fun ps b' g' => b = b' ∧ Pushing g b vs ps g' := by
  unfold Build.pushArguments
  induction vs generalizing g with
  | nil => simpa [pushAll] using ⟨hg, hb, rfl, .nil, by simp, fun _ _ h => h⟩
  | cons v vs ih =>
    rw [List.forall_mem_cons] at hvs
    simp only [List.mapM_cons, Threads.bind_iff, Threads.pure_iff]
    refine (Threads.pushArgument_adds hg hvs.1).mono ?_
    rintro p _ g₁ ⟨rfl, hadds⟩
    obtain ⟨hgrown, -⟩ := hadds.grown (P := fun _ => True) hg hb (Threads.admits_pushArgument hvs.1)
      (pushInto_perm _ _ _) id
    obtain rfl := hadds.1
    refine (ih hgrown.raw (hgrown.handle hb) fun u hu => Nat.lt_of_lt_of_le (hvs.2 u hu) hgrown.nodes).mono ?_
    rintro ps _ g₂ ⟨rfl, h⟩
    refine ⟨rfl, h.raw, h.handle, ?_, .cons (h.kept _ _ hadds.inst) h.pushes, ?_, fun j e he =>
      h.kept j e (hadds.kept he)⟩
    · rw [h.insts, hadds.insts, if_pos rfl]
      rfl
    · refine List.forall_mem_cons.mpr ⟨Nat.le_refl _, fun p hp => ?_⟩
      exact Nat.le_trans hgrown.nodes (h.fresh p hp)

/-- The functions of the builder that push the arguments `vs` of a call. -/
inductive IsCall (vs : List InstId) : Build InstId → Prop where
  | instanceCall (selector : String) (token : Token) (checked : Nat) (feedback : Option InlineCache) :
      IsCall vs (Build.instanceCall selector token vs checked feedback)
  | staticCall (f : FunctionId) : IsCall vs (Build.staticCall f vs)
  | constructorCall (f : FunctionId) (result : ClassId) : IsCall vs (Build.constructorCall f vs result)
  | allocateObject (cls : ClassId) : IsCall vs (Build.allocateObject cls vs)
  | createArray : IsCall vs (Build.createArray vs)

/-- An instruction that takes its operands from pushes only. -/
structure TakesPushes (d : Inst) (ps : List InstId) : Prop where
  fits : d.fits = true
  args : d.args = []
  arguments : d.arguments = ps
  successors : d.successors = []
  slot : d.slot? = none

theorem IsCall.exists_inst (h : IsCall vs m) : ∃ d : List InstId → Inst,
    m = (do let ps ← Build.pushArguments vs; Build.inst (d ps)) ∧ ∀ ps, TakesPushes (d ps) ps := by
  cases h with
  | instanceCall s t n ic => exact ⟨fun ps => .instanceCall ⟨s, t, ps, ic, n⟩, rfl, fun _ => ⟨rfl, rfl, rfl, rfl, rfl⟩⟩
  | staticCall f => exact ⟨fun ps => .staticCall f ps .dynamic, rfl, fun _ => ⟨rfl, rfl, rfl, rfl, rfl⟩⟩
  | constructorCall f result => exact ⟨fun ps => .staticCall f ps result, rfl, fun _ => ⟨rfl, rfl, rfl, rfl, rfl⟩⟩
  | allocateObject cls => exact ⟨fun ps => .allocateObject cls ps, rfl, fun _ => ⟨rfl, rfl, rfl, rfl, rfl⟩⟩
  | createArray => exact ⟨fun ps => .createArray ps, rfl, fun _ => ⟨rfl, rfl, rfl, rfl, rfl⟩⟩

/-- The block `b` has the pushes `ps` of the values `vs` and the call that takes them. Just those values that are in
`old` are made in the block. -/
structure Emitted (old : List InstId) (b : BlockId) (vs ps : List InstId) (call : InstId) (d : Inst) (g : FlowGraph) :
    Prop where
  insts : ∃ front back, g.insts b = pushAll vs ps front ++ call :: back ∧ ∀ v ∈ vs, v ∈ front ↔ v ∈ old
  pushes : List.Forall₂ (fun v p => g.inst p = .ok (.pushArgument v)) vs ps
  call : g.inst call = .ok d
  takes : TakesPushes d ps
  known : ∀ v ∈ vs, v.index < g.nodes.size
  apart : ∀ v ∈ vs, v ∉ ps

theorem IsCall.emitted (hm : IsCall vs m) (hg : Raw g) (hb : g.Handle b) (hvs : ∀ v ∈ vs, v.index < g.nodes.size) :
    Threads False g b m fun call b' g' => b = b' ∧ Raw g' ∧ g'.Handle b ∧
    ∃ ps d, Emitted (g.insts b) b vs ps call d g' := by
  obtain ⟨d, rfl, htakes⟩ := hm.exists_inst
  rw [Threads.bind_iff]
  refine (builds_pushing hg hb hvs).mono ?_
  rintro ps _ g₁ ⟨rfl, h₁⟩
  have hold : ∀ v ∈ vs, v.index < g₁.nodes.size := fun v hv => by
    obtain ⟨d, hd⟩ : ∃ d, g.inst v = .ok d :=
      ⟨_, FlowGraph.inst_eq_ok.mpr ⟨_, Array.getElem?_eq_getElem (hvs v hv), rfl⟩⟩
    exact index_lt_of_inst (h₁.kept v d hd)
  have hadmits : g₁.Admits (d ps) := by
    refine ⟨(htakes ps).fits, ?_, by simp [(htakes ps).successors], by simp [(htakes ps).slot]⟩
    rw [(htakes ps).args, (htakes ps).arguments, List.nil_append]
    intro p hp
    obtain ⟨k, hk, rfl⟩ := List.getElem_of_mem hp
    have hv : k < vs.length := by rwa [h₁.pushes.length_eq]
    exact index_lt_of_inst ((List.forall₂_iff_get.mp h₁.pushes).2 k hv hk)
  refine (Threads.inst_adds h₁.raw hadmits).mono ?_
  rintro call _ g₂ ⟨rfl, hadds⟩
  obtain ⟨hgrown, -⟩ := hadds.grown (P := fun _ => True) h₁.raw h₁.handle hadmits (List.perm_append_singleton _ _) id
  refine ⟨rfl, hgrown.raw, hgrown.handle h₁.handle, ps, _, ⟨g.insts b, [], ?_, fun _ _ => .rfl⟩, ?_,
    hadds.inst, htakes ps, fun v hv => Nat.lt_of_lt_of_le (hold v hv) hgrown.nodes,
    fun v hv hp => Nat.not_lt.mpr (h₁.fresh v hp) (hvs v hv)⟩
  · rw [hadds.insts, if_pos rfl, h₁.insts, hadds.1]
  · exact h₁.pushes.imp fun _ _ => hadds.kept

/-! ## What is built later -/

theorem exists_pushInto {w q : InstId} {front back : List InstId} (hw : w ∉ front) :
    ∃ back', pushInto w q (front ++ call :: back) = front ++ call :: back' := by
  unfold pushInto
  split
  · rw [putAfter_append_of_notMem hw, Layout.putAfter]
    split
    · exact ⟨_, rfl⟩
    · exact ⟨_, rfl⟩
  · exact ⟨back ++ [q], by simp⟩

/-- The call stays behind the pushes of its arguments, unless these or the values are pushed once more. -/
theorem lasts_emitted : Lasts (fun v => v ∉ vs ∧ v ∉ ps) (Emitted old b vs ps call d) where
  block _ _ h := ⟨h.insts, h.pushes, h.call, h.takes, h.known, h.apart⟩
  inst := by
    intro g g' c e i hg h hadds
    refine ⟨?_, h.pushes.imp fun _ _ => hadds.kept, hadds.kept h.call, h.takes,
      fun v hv => by rw [hadds.size]; exact Nat.lt_succ_of_lt (h.known v hv), h.apart⟩
    obtain ⟨front, back, hinsts, hfront⟩ := h.insts
    rw [hadds.insts]
    split
    case isTrue hbc => exact ⟨front, back ++ [g.nextId], by rw [← hbc, hinsts, List.append_assoc]; rfl, hfront⟩
    case isFalse => exact ⟨front, back, hinsts, hfront⟩
  push := by
    intro g g' c w q hg hw h hadds
    refine ⟨?_, h.pushes.imp fun _ _ => hadds.kept, hadds.kept h.call, h.takes,
      fun v hv => by rw [hadds.size]; exact Nat.lt_succ_of_lt (h.known v hv), h.apart⟩
    obtain ⟨front, back, hinsts, hold⟩ := h.insts
    rw [hadds.insts]
    split
    case isFalse => exact ⟨front, back, hinsts, hold⟩
    case isTrue hbc =>
      have hnew (v : InstId) (hv : v ∈ vs) : v ≠ g.nextId := fun heq => by
        have hlt := h.known v hv
        simp [heq, FlowGraph.nextId] at hlt
      rw [← hbc, hinsts]
      by_cases hfront : w ∈ front
      · refine ⟨Layout.putAfter w g.nextId front, back, ?_, fun v hv => ?_⟩
        · have hin : w ∈ pushAll vs ps front := (mem_pushAll h.pushes.length_eq).mpr (.inr hfront)
          rw [pushInto_of_mem (List.mem_append_left _ hin), putAfter_append hin, pushAll_putAfter hfront hw.1 hw.2]
          exact fun hmem => hnew _ hmem rfl
        · rw [(Layout.putAfter_perm hfront).mem_iff, List.mem_cons, or_iff_right (hnew v hv), hold v hv]
      · have hout : w ∉ pushAll vs ps front := by
          rw [mem_pushAll h.pushes.length_eq, not_or]
          exact ⟨hw.2, hfront⟩
        obtain ⟨back', hback⟩ := exists_pushInto hout
        exact ⟨front, back', hback, hold⟩

/-- The instructions in front of a call, without the pushes of its arguments. -/
def FlowGraph.beforeCall (g : FlowGraph) (b : BlockId) (call : InstId) (ps : List InstId) : List InstId :=
  ((g.insts b).takeWhile (· ≠ call)).filter (· ∉ ps)

theorem Emitted.insts_eq (h : Emitted old b vs ps call d g) (hg : Raw g) :
    (∃ back, g.insts b = pushAll vs ps (g.beforeCall b call ps) ++ call :: back) ∧
      (ps ++ g.beforeCall b call ps).Nodup ∧ ∀ v ∈ vs, v ∈ g.beforeCall b call ps ↔ v ∈ old := by
  obtain ⟨front, back, hinsts, hold⟩ := h.insts
  have hnodup := hg.layout.nodup b
  rw [← FlowGraph.insts, hinsts, List.nodup_append] at hnodup
  obtain ⟨hnodup, -, hcall⟩ := hnodup
  rw [(pushAll_perm h.pushes.length_eq).nodup_iff] at hnodup
  have hbefore : g.beforeCall b call ps = front := by
    have htake : (pushAll vs ps front ++ call :: back).takeWhile (· ≠ call) = pushAll vs ps front := by
      rw [List.takeWhile_append_of_pos, List.takeWhile_cons_of_neg (by simp), List.append_nil]
      intro x hx
      simpa using hcall x hx call List.mem_cons_self
    rw [FlowGraph.beforeCall, hinsts, htake, filter_pushAll h.pushes.length_eq, List.filter_eq_self]
    intro x hx
    simpa using fun hp => (List.nodup_append.mp hnodup).2.2 x hp x hx rfl
  rw [hbefore]
  exact ⟨⟨back, hinsts⟩, hnodup, hold⟩

end Emission

end Midend

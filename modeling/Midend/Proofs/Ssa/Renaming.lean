import Midend.Proofs.Ssa.Progress

/-! # What renaming does

One instruction pops its operands, which have to be what the stack holds, and leaves its result. A block runs
its instructions from the frame at the end of its dominator, and every block of the tree is renamed once.
-/

namespace Midend

open Midend.Flow

def Inst.withArgs (d : Inst) (as : List InstId) : Inst := d.mapArgs fun k a => as.getD k a

theorem Inst.withArgs_nil {d : Inst} : d.withArgs [] = d := Inst.mapArgs_id

theorem Inst.withArgs_concat {d : Inst} {as : List InstId} {v : InstId} :
    (d.setArg as.length v).withArgs as = d.withArgs (as ++ [v]) := by
  unfold Inst.withArgs
  rw [Inst.setArg_eq, Inst.mapArgs_mapArgs]
  refine Inst.mapArgs_congr fun k a _ => ?_
  rw [List.getD_eq_getElem?_getD, List.getD_eq_getElem?_getD]
  obtain hlt | rfl | hgt := Nat.lt_trichotomy k as.length
  · simp [hlt, List.getElem?_append_left hlt]
  · simp
  · simp [Nat.ne_of_gt hgt, List.getElem?_eq_none (Nat.le_of_lt hgt),
      List.getElem?_eq_none (show (as ++ [v]).length ≤ k by simpa using hgt)]

theorem Inst.eq_storeLocal_of_withArgs {d : Inst} {as : List InstId} {slot : Nat} {v : InstId}
    (h : d.withArgs as = .storeLocal slot v) : ∃ a, d = .storeLocal slot a ∧ v = as.getD 0 a := by
  cases d <;> simp_all [withArgs, mapArgs]

theorem Inst.eq_loadLocal_of_withArgs {d : Inst} {as : List InstId} {slot : Nat}
    (h : d.withArgs as = .loadLocal slot) : d = .loadLocal slot := by
  cases d <;> simp_all [withArgs, mapArgs]

namespace Ssa

/-! ## One instruction -/

/-- The instruction reads or writes a local variable in the raw graph. -/
def isLocalIn (r : FlowGraph) (i : InstId) : Bool := ((r.nodes[i.index]?).map fun n => n.inst.isLocal).getD false

def resolve (r : FlowGraph) (s : Names) (a : InstId) : Option InstId :=
  if isLocalIn r a then s.resolved.lookup a else some a

/-- The environment of an instruction that found `f` and popped its operands off it, so that `rest` was left. -/
def resumeAt (d : Inst) (f rest : Frame) (fixed : Nat) : Option Environment :=
  if d.canDeoptimize || d.opcode == .goto then some ⟨f, fixed⟩
  else if d.opcode = .branch then some ⟨rest, fixed⟩
  else none

def Lives (g₀ g : FlowGraph) (v : InstId) : Prop :=
  ∀ m : Node, g₀.nodes[v.index]? = some m → m.inst.isPhi = true → aliveIn g v = true

/-- A local access that evaluates to `v` leaves it on the stack if it is used, and has no place any more if
not. -/
structure LeavesLocal (s : Names) (g : FlowGraph) (i : InstId) (n : Node) (v : InstId) (f f' : Frame) : Prop where
  resolved : s.resolved.lookup i = some v
  frame : f' = f ++ if n.isUsed then [v] else []
  gone : n.isUsed = false → g.layout.home? i = none

/-- What the instruction `i` makes of the frame `rest` once its operands `as` are popped. -/
def Leaves (r g₀ : FlowGraph) (s : Names) (g : FlowGraph) (i : InstId) (n : Node) (as rest f' : Frame) : Prop :=
  match n.inst with
  | .storeLocal slot _ => slot < r.parameterCount + r.localCount ∧
    ∃ v, as = [v] ∧ LeavesLocal s g i n v (rest.set slot v) f'
  | .loadLocal slot => slot < r.parameterCount + r.localCount ∧
    ∃ v, rest[slot]? = some v ∧ Lives g₀ g v ∧ LeavesLocal s g i n v rest f'
  | d => f' = rest ++ if d.opcode = .pushArgument ∨ (d.isDefinition = true ∧ n.isUsed = true) then [i] else []

/-- The instruction `i`, which was built as `n`, takes the frame `f` to `f'`. -/
structure StepHolds (r g₀ : FlowGraph) (s : Names) (g : FlowGraph) (i : InstId) (n : Node) (as rest f f' : Frame) :
    Prop where
  built : r.nodes[i.index]? = some n
  frame : f = rest ++ n.inst.arguments ++ as
  room : r.parameterCount + r.localCount ≤ rest.length
  inputs : List.Forall₂ (fun a v => resolve r s a = some v) n.inst.args as
  renamed : ∃ n', g.nodes[i.index]? = some n' ∧ n'.inst = n.inst.withArgs as ∧
    n'.env = resumeAt n.inst f rest r.parameterCount
  consumed : ∀ a ∈ n.inst.args, isLocalIn r a = true → g.layout.home? a = none
  leaves : Leaves r g₀ s g i n as rest f'
  indexed : n.inst.isLocal = false → n.inst.isDefinition = true → n.isUsed = true → n.inst.opcode ≠ .pushArgument →
    g.Indexed i

def Step (r g₀ : FlowGraph) (s : Names) (g : FlowGraph) (i : InstId) (f f' : Frame) : Prop :=
  ∃ n as rest, StepHolds r g₀ s g i n as rest f f'

section Steps

variable {r g₀ g g' : FlowGraph} {t : Tour} {H : List InstId} {s s' : Names} {i x : InstId} {b : BlockId}
  {f f' : Frame} {n : Node}

theorem Lives.later {v : InstId} (h : Lives g₀ g v) (hl : Later H s g s' g') : Lives g₀ g' v :=
  fun m hm hphi => hl.alive v (h m hm hphi)

theorem LeavesLocal.later {v : InstId} (h : LeavesLocal s g i n v f f') (hl : Later H s g s' g') :
    LeavesLocal s' g' i n v f f' :=
  ⟨hl.resolved i v h.resolved, h.frame, fun hu => hl.gone i (h.gone hu)⟩

theorem resolve_later {a v : InstId} (h : resolve r s a = some v) (hl : Later H s g s' g') :
    resolve r s' a = some v := by
  unfold resolve at *
  by_cases hlocal : isLocalIn r a = true
  · rw [if_pos hlocal] at h ⊢
    exact hl.resolved a v h
  · rwa [if_neg hlocal] at h ⊢

theorem Step.later (h : Step r g₀ s g i f f') (hl : Later H s g s' g') (hi : i ∈ H) : Step r g₀ s' g' i f f' := by
  obtain ⟨n, as, rest, h⟩ := h
  refine ⟨n, as, rest, h.built, h.frame, h.room, h.inputs.imp fun _ _ ha => resolve_later ha hl, ?_,
    fun a ha hlocal => hl.gone a (h.consumed a ha hlocal), ?_,
    fun hlocal hdef hused hpush => hl.names.indexed i (h.indexed hlocal hdef hused hpush)⟩
  · obtain ⟨n', hn', hinst, henv⟩ := h.renamed
    obtain ⟨n'', hn'', hinst', henv'⟩ := hl.kept i hi n' hn'
    exact ⟨n'', hn'', hinst'.trans hinst, henv'.trans henv⟩
  · have hleaves := h.leaves
    unfold Leaves at *
    split
    case h_1 slot _ hinst =>
      simp only [hinst] at hleaves
      obtain ⟨hslot, v, has, hv⟩ := hleaves
      exact ⟨hslot, v, has, hv.later hl⟩
    case h_2 slot hinst =>
      simp only [hinst] at hleaves
      obtain ⟨hslot, v, hrest, hlives, hv⟩ := hleaves
      exact ⟨hslot, v, hrest, hlives.later hl, hv.later hl⟩
    case h_3 hstore hload =>
      split at hleaves
      case h_1 slot v hinst => exact absurd hinst (hstore slot v)
      case h_2 slot hinst => exact absurd hinst (hload slot)
      case h_3 => exact hleaves

/-! ## Popping operands -/

theorem renames_pop {slots : Nat} : Renames False (fun _ => True) g s (pop slots b f) fun r s' g' =>
    s = s' ∧ g = g' ∧ f = r.2 ++ [r.1] ∧ slots ≤ r.2.length := by
  unfold pop
  cases hlast : f.getLast? with
  | none => simp
  | some v =>
    obtain ⟨f', rfl⟩ := List.getLast?_eq_some_iff.mp hlast
    simp only
    split
    · rw [Renames.bind_iff, Renames.throwThe_iff]
      trivial
    case isFalse hroom =>
      rw [Renames.pure_iff]
      refine ⟨rfl, rfl, by simp, ?_⟩
      simp only [List.length_append, List.length_singleton, List.dropLast_concat] at hroom ⊢
      omega

theorem isLocalIn_eq (hn : r.nodes[i.index]? = some n) : isLocalIn r i = n.inst.isLocal := by
  simp [isLocalIn, hn]

/-- While the inputs of `i` are popped: nothing but `i` changes, and the locals it consumes lose their place. -/
structure Popping (r g₀ : FlowGraph) (H : List InstId) (s : Names) (i : InstId) (g g' : FlowGraph) : Prop where
  progress : Progress r g₀ (i :: H) g'
  later : Later H s g s g'
  inputs : SameInputs g g'
  home : g'.layout.home? i = g.layout.home? i
  life : ∀ j, aliveIn g' j = aliveIn g j

theorem Popping.trans {g'' : FlowGraph} (h : Popping r g₀ H s i g g') (h' : Popping r g₀ H s i g' g'') :
    Popping r g₀ H s i g g'' :=
  ⟨h'.progress, h.later.trans h'.later, h.inputs.trans h'.inputs, h'.home.trans h.home,
    fun j => (h'.life j).trans (h.life j)⟩

theorem Popping.withNode (hp : Progress r g₀ (i :: H) g) (hi : i ∉ H) (hr : i.index < r.nodes.size) (h : Base r t g₀)
    {f : Node → Node} (hf : ∀ n, g.nodes[i.index]? = some n → n.Evolves (f n) ∧ (f n).block = n.block)
    (hnames : ∀ n, (f n).ssaIndex = n.ssaIndex) : Popping r g₀ H s i g (g.withNode i f) := by
  have hphi : ∀ n, g.nodes[i.index]? = some n → n.inst.isPhi = false := by
    intro n hn
    have hold : r.nodes[i.index]? = some r.nodes[i.index] := Array.getElem?_eq_getElem hr
    obtain ⟨n₀, hn₀, hev⟩ := hp.exists_base hn
    obtain rfl : r.nodes[i.index] = n₀ := by simpa [h.old i _ hold] using hn₀
    rw [hev.isPhi, h.isPhi_of_raw hold]
  have hlife : ∀ j, aliveIn (g.withNode i f) j = aliveIn g j := aliveIn_withNode fun n hn => by
    have hphi' : (f n).inst.isPhi = false := (hf n hn).1.isPhi.trans (hphi n hn)
    rw [Inst.isAlivePhi_of_not_isPhi hphi', Inst.isAlivePhi_of_not_isPhi (hphi n hn)]
  have hf' : ∀ n, g.nodes[i.index]? = some n →
      n.Evolves (f n) ∧ (f n).block = n.block ∧ (r.nodes.size ≤ i.index → (f n).env = n.env) := fun n hn =>
    ⟨(hf n hn).1, (hf n hn).2, fun hle => absurd hr (Nat.not_lt.mpr hle)⟩
  refine ⟨hp.withNode (.inl List.mem_cons_self) hf', Later.withNode hi (fun j hj => (hlife j).trans hj) hnames,
    SameInputs.withNode fun n hn ha => ?_, rfl, hlife⟩
  exact absurd ha (by simp [hphi n hn])

theorem Popping.setArgQuietly (h : Base r t g₀) (hp : Progress r g₀ (i :: H) g) (hi : i ∉ H)
    (hr : i.index < r.nodes.size) {m : Node} (hm : g.nodes[i.index]? = some m) {k : Nat} {v : InstId}
    (hk : k < m.inst.args.length) : Leads False g (Edit.setArgQuietly i k v) fun _ g' =>
      Popping r g₀ H s i g g' ∧ g'.layout = g.layout ∧
      ∃ m', g'.nodes[i.index]? = some m' ∧ m'.inst = m.inst.setArg k v ∧ m'.env = m.env := by
  rw [Leads.setArgQuietly_iff]
  refine ⟨fun _ _ _ => ⟨?_, rfl, ?_⟩, fun hle => absurd hk (Nat.not_lt.mpr (hle m hm))⟩
  · exact Popping.withNode hp hi hr h (fun n _ => ⟨⟨⟨_, .inl (Inst.setArg_eq k v)⟩, rfl, rfl, rfl, rfl⟩, rfl⟩) fun _ =>
      rfl
  · exact ⟨{ m with inst := m.inst.setArg k v }, by rw [FlowGraph.nodes_withNode_self, hm]; rfl, rfl, rfl⟩

theorem renames_popInput (h : Base r t g₀) (hp : Progress r g₀ (i :: H) g) (hi : i ∉ H)
    (hbuilt : r.nodes[i.index]? = some n) {m : Node} (hm : g.nodes[i.index]? = some m) {k : Nat}
    {a : InstId} (ha : n.inst.args[k]? = some a) (harg : m.inst.args[k]? = some a)
    (hresolved : ∀ x v, s.resolved.lookup x = some v → x ∈ H) :
    Renames False (fun _ => True) g s (popInput b i f k) fun f' s' g' => s = s' ∧ Popping r g₀ H s i g g' ∧
      r.parameterCount + r.localCount ≤ f'.length ∧ ∃ v, f = f' ++ [v] ∧ resolve r s a = some v ∧
      (isLocalIn r a = true → g'.layout.home? a = none) ∧
      ∃ m', g'.nodes[i.index]? = some m' ∧ m'.inst = m.inst.setArg k v ∧ m'.env = m.env := by
  have hr : i.index < r.nodes.size := (Array.getElem?_eq_some_iff.mp hbuilt).1
  have hcount := Progress.variableCount h hp
  have hargok : g.arg i k = .ok a := FlowGraph.arg_eq_ok.mpr ⟨m, hm, harg⟩
  have hra : a.index < r.nodes.size :=
    (h.raw.admits i n hbuilt).inputs a (List.mem_append_left _ (List.mem_of_getElem? ha))
  have hanode : r.nodes[a.index]? = some r.nodes[a.index] := Array.getElem?_eq_getElem hra
  obtain ⟨ma, hma, heva⟩ := hp.nodes a _ (h.old a _ hanode)
  have hop : g.opcode a = .ok r.nodes[a.index].inst.opcode := FlowGraph.opcode_eq_ok.mpr ⟨ma, hma, heva.opcode⟩
  have hlocal : isLocalIn r a =
      (r.nodes[a.index].inst.opcode == .loadLocal || r.nodes[a.index].inst.opcode == .storeLocal) := isLocalIn_eq hanode
  unfold popInput
  rw [Renames.bind_iff, Renames.getThe_iff, Renames.bind_iff, Renames.read_iff, hcount, Yields.ok_iff, Renames.bind_iff]
  refine renames_pop.mono ?_
  rintro ⟨v, f'⟩ _ _ ⟨rfl, rfl, rfl, hroom⟩
  rw [Renames.bind_iff, Renames.read_iff, hargok, Yields.ok_iff, Renames.bind_iff, Renames.read_iff, hop, Yields.ok_iff,
    Renames.bind_iff, Renames.get_iff, ← hlocal]
  have hexpected : (if isLocalIn r a = true then s.resolved.lookup a else some a) = resolve r s a := rfl
  simp only [hexpected]
  split
  · rw [Renames.bind_iff, Renames.renameGiveUp_iff]
    trivial
  case isFalse hv =>
    have hv : resolve r s a = some v := not_not.mp hv
    have hk : k < m.inst.args.length := (List.getElem?_eq_some_iff.mp harg).1
    by_cases hloc : isLocalIn r a = true
    · -- The local access has been come to before, so it is not `i`.
      have haH : a ∈ H := by
        rw [resolve, if_pos hloc] at hv
        exact hresolved a v hv
      have hne : i ≠ a := fun heq => hi (heq ▸ haH)
      rw [if_pos hloc]
      split
      case isTrue hplaced =>
        rw [Renames.bind_iff, Renames.lift_iff]
        refine (leads_remove h hp hra hplaced).mono ?_
        rintro _ _ ⟨c, hc, rfl⟩
        have hp' : Progress r g₀ (i :: H) (unplaced g a c) :=
          hp.unplaced hc (List.mem_cons_of_mem i haH) hanode ((isLocalIn_eq hanode).symm.trans hloc)
        have hpop : Popping r g₀ H s i g (unplaced g a c) := by
          refine ⟨hp', .unplaced s g a c, .unplaced, ?_, aliveIn_unplaced g a c⟩
          show (g.layout.unplace a c).home? i = _
          rw [Layout.home?_unplace, if_neg hne]
        have hm' : (unplaced g a c).nodes[i.index]? = some m := by
          rw [unplaced, FlowGraph.nodes_withLayout, FlowGraph.nodes_withNode_ne hne, hm]
        rw [Renames.bind_iff, Renames.lift_iff]
        refine (Popping.setArgQuietly (s := s) h hp' hi hr hm' hk).mono ?_
        rintro _ g' ⟨hpop', hlayout, hm''⟩
        rw [Renames.pure_iff]
        refine ⟨rfl, hpop.trans hpop', hroom, v, rfl, hv, fun _ => ?_, hm''⟩
        rw [hlayout]
        show (g.layout.unplace a c).home? a = none
        rw [Layout.home?_unplace, if_pos rfl]
      case isFalse hplaced =>
        rw [Renames.bind_iff, Renames.lift_iff]
        refine (Popping.setArgQuietly (s := s) h hp hi hr hm hk).mono ?_
        rintro _ g' ⟨hpop', hlayout, hm''⟩
        rw [Renames.pure_iff]
        refine ⟨rfl, hpop', hroom, v, rfl, hv, fun _ => ?_, hm''⟩
        rw [hlayout]
        exact Option.not_isSome_iff_eq_none.mp hplaced
    · rw [if_neg hloc, Renames.pure_iff]
      obtain rfl : a = v := by simpa [resolve, hloc] using hv
      refine ⟨rfl, ⟨hp, .refl H s g, .refl g, rfl, fun _ => rfl⟩, hroom, a, rfl, hv, fun hl =>
        absurd hl hloc, m, hm, ?_, rfl⟩
      rw [Inst.setArg_eq]
      refine ((Inst.mapArgs_congr fun j c hc => ?_).trans Inst.mapArgs_id).symm
      split
      case isTrue hj =>
        subst hj
        exact (Option.some_inj.mp (harg.symm.trans hc))
      case isFalse => rfl

theorem renames_popInputs (h : Base r t g₀) (hp : Progress r g₀ (i :: H) g) (hi : i ∉ H)
    (hbuilt : r.nodes[i.index]? = some n) (hresolved : ∀ x v, s.resolved.lookup x = some v → x ∈ H) {k : Nat}
    (hk : k ≤ n.inst.args.length) {m : Node} (hm : g.nodes[i.index]? = some m)
    (hsame : ∀ j < k, m.inst.args[j]? = n.inst.args[j]?) (hroom : r.parameterCount + r.localCount ≤ f.length) :
    Renames False (fun _ => True) g s ((List.range k).reverse.foldlM (popInput b i) f) fun f' s' g' => s = s' ∧
      Popping r g₀ H s i g g' ∧ r.parameterCount + r.localCount ≤ f'.length ∧ ∃ as, f = f' ++ as ∧
      List.Forall₂ (fun a v => resolve r s a = some v) (n.inst.args.take k) as ∧
      (∀ a ∈ n.inst.args.take k, isLocalIn r a = true → g'.layout.home? a = none) ∧
      ∃ m', g'.nodes[i.index]? = some m' ∧ m'.inst = m.inst.withArgs as ∧ m'.env = m.env := by
  induction k generalizing f g m with
  | zero =>
    refine ⟨rfl, ⟨hp, .refl H s g, .refl g, rfl, fun _ => rfl⟩, hroom, [], by simp, .nil, by simp, m, hm, ?_, rfl⟩
    exact Inst.withArgs_nil.symm
  | succ k ih =>
    have hlt : k < n.inst.args.length := hk
    have ha : n.inst.args[k]? = some n.inst.args[k] := List.getElem?_eq_getElem hlt
    have hlen : (n.inst.args.take k).length = k := by simpa using Nat.le_of_lt hlt
    rw [List.range_succ, List.reverse_append, List.reverse_singleton, List.singleton_append, List.foldlM_cons,
      Renames.bind_iff]
    refine (renames_popInput h hp hi hbuilt hm ha ((hsame k (Nat.lt_succ_self k)).trans ha) hresolved).mono ?_
    rintro f₁ _ g₁ ⟨rfl, hpop, hroom₁, v, rfl, hv, hgone, m₁, hm₁, hinst₁, henv₁⟩
    have hsame₁ : ∀ j < k, m₁.inst.args[j]? = n.inst.args[j]? := by
      intro j hj
      rw [hinst₁, Inst.setArg_eq, Inst.args_mapArgs, List.getElem?_mapIdx, hsame j (Nat.lt_succ_of_lt hj)]
      simp [Nat.ne_of_lt hj]
    refine (ih hpop.progress (Nat.le_of_lt hlt) hm₁ hsame₁ hroom₁).mono ?_
    rintro f' _ g' ⟨rfl, hpop', hroom', as, rfl, has, hgone', m', hm', hinst', henv'⟩
    have htake : n.inst.args.take (k + 1) = n.inst.args.take k ++ [n.inst.args[k]] := by simp
    refine ⟨rfl, hpop.trans hpop', hroom', as ++ [v], by simp, ?_, ?_, m', hm', ?_, henv'.trans henv₁⟩
    · rw [htake]
      exact List.rel_append has (.cons hv .nil)
    · intro a hmem hloc
      rw [htake, List.mem_append, List.mem_singleton] at hmem
      obtain hmem | rfl := hmem
      · exact hgone' a hmem hloc
      · exact hpop'.later.gone _ (hgone hloc)
    · obtain rfl : k = as.length := hlen.symm.trans has.length_eq
      rw [hinst', hinst₁]
      exact Inst.withArgs_concat

theorem renames_popArguments (h : Base r t g₀) (hp : Progress r g₀ H g) (as : List InstId)
    (hroom : r.parameterCount + r.localCount ≤ f.length) :
    Renames False (fun _ => True) g s (as.reverse.foldlM (popArgument b i) f) fun f' s' g' => s = s' ∧ g = g' ∧
    f = f' ++ as ∧
      r.parameterCount + r.localCount ≤ f'.length := by
  refine (Renames.stepwise.foldlM (s := (s, g)) (fun done f' w => (s, g) = w ∧ f = f' ++ done.reverse ∧
    r.parameterCount + r.localCount ≤ f'.length) ⟨rfl, by simp, hroom⟩ ?_).mono ?_
  · rintro done a rest f' _ - ⟨rfl, rfl, -⟩
    simp only [popArgument, Renames.bind_iff, Renames.getThe_iff, Renames.read_iff, Progress.variableCount h hp,
      Yields.ok_iff]
    refine renames_pop.mono ?_
    rintro ⟨v, f₁⟩ _ _ ⟨rfl, rfl, rfl, hroom₁⟩
    simp only
    split
    · rw [Renames.bind_iff, Renames.renameGiveUp_iff]
      trivial
    case isFalse hv =>
      obtain rfl : v = a := not_not.mp hv
      rw [Renames.pure_iff]
      exact ⟨rfl, by simp, hroom₁⟩
  · rintro f' s' g' ⟨heq, hf, hroom'⟩
    obtain ⟨rfl, rfl⟩ := Prod.mk.inj heq
    exact ⟨rfl, rfl, by simpa using hf, hroom'⟩

/-! ## Leaving results -/

/-- The frame holds all variables, and only instructions of the graph. -/
structure Sized (r g₀ : FlowGraph) (f : Frame) : Prop where
  room : r.parameterCount + r.localCount ≤ f.length
  known : ∀ v ∈ f, v.index < g₀.nodes.size

/-- What renaming has found out of the instructions in `H`. -/
structure Known (r : FlowGraph) (H : List InstId) (s : Names) (g : FlowGraph) : Prop where
  handled : ∀ x ∈ H, x.index < r.nodes.size
  resolved : ∀ x v, s.resolved.lookup x = some v → x ∈ H
  live : ∀ j, j ∈ s.live ↔ aliveIn g j = true

/-- Renaming has gone on from the instructions in `H` to those in `H'`. -/
structure Advances (r g₀ : FlowGraph) (H H' : List InstId) (s : Names) (g : FlowGraph) (s' : Names)
    (g' : FlowGraph) : Prop where
  progress : Progress r g₀ H' g'
  known : Known r H' s' g'
  later : Later H s g s' g'
  inputs : SameInputs g g'

theorem Advances.trans {H' H'' : List InstId} {s'' : Names} {g'' : FlowGraph} (h : Advances r g₀ H H' s g s' g')
    (h' : Advances r g₀ H' H'' s' g' s'' g'') (hsub : H ⊆ H') : Advances r g₀ H H'' s g s'' g'' :=
  ⟨h'.progress, h'.known, h.later.trans (h'.later.anti hsub), h.inputs.trans h'.inputs⟩

def Stays (i : InstId) (g g' : FlowGraph) : Prop :=
  ∀ m : Node, g.nodes[i.index]? = some m → ∃ m', g'.nodes[i.index]? = some m' ∧ m'.inst = m.inst ∧ m'.env = m.env

theorem Stays.refl : Stays i g g := fun m hm => ⟨m, hm, rfl, rfl⟩

theorem Stays.trans {g'' : FlowGraph} (h : Stays i g g') (h' : Stays i g' g'') : Stays i g g'' := by
  intro m hm
  obtain ⟨m', hm', hinst, henv⟩ := h m hm
  obtain ⟨m'', hm'', hinst', henv'⟩ := h' m' hm'
  exact ⟨m'', hm'', hinst'.trans hinst, henv'.trans henv⟩

theorem Stays.withNode {f : Node → Node} (hf : ∀ n, (f n).inst = n.inst ∧ (f n).env = n.env) :
    Stays i g (g.withNode x f) := by
  intro m hm
  refine ⟨_, (FlowGraph.nodes_withNode x i f).trans (by rw [hm]; rfl), ?_, ?_⟩
  · split
    · exact (hf m).1
    · rfl
  · split
    · exact (hf m).2
    · rfl

theorem Known.mono (hk : Known r H s g) (hi : i.index < r.nodes.size) (hlife : ∀ j, aliveIn g' j = aliveIn g j) :
    Known r (i :: H) s g' where
  handled := fun x hx => (List.mem_cons.mp hx).elim (fun h => h ▸ hi) (hk.handled x)
  resolved := fun x v hx => List.mem_cons_of_mem i (hk.resolved x v hx)
  live := fun j => (hk.live j).trans (by rw [hlife j])

theorem Sized.concat (hf : Sized r g₀ f) (hi : i.index < g₀.nodes.size) : Sized r g₀ (f ++ [i]) where
  room := by
    rw [List.length_append]
    exact Nat.le_add_right_of_le hf.room
  known := by
    intro x hx
    obtain hx | hx := List.mem_append.mp hx
    · exact hf.known x hx
    · rwa [List.mem_singleton.mp hx]

theorem Sized.set (hf : Sized r g₀ f) (hi : i.index < g₀.nodes.size) (k : Nat) : Sized r g₀ (f.set k i) where
  room := by simpa using hf.room
  known := by
    intro x hx
    obtain hx | rfl := List.mem_or_eq_of_mem_set hx
    · exact hf.known x hx
    · exact hi

theorem renames_leaveLocal (h : Base r t g₀) (hp : Progress r g₀ (i :: H) g) (hi : i ∉ H) (hk : Known r H s g)
    (hbuilt : r.nodes[i.index]? = some n) (hlocal : n.inst.isLocal = true) (hplaced : g.isPlaced i = true)
    (hf : Sized r g₀ f) {v : InstId} (hv : v.index < g₀.nodes.size) :
    Renames False (fun _ => True) g s (leaveLocal i v n.isUsed f) fun f' s' g' => Advances r g₀ H (i :: H) s g s' g' ∧
    Stays i g g' ∧
      Sized r g₀ f' ∧ LeavesLocal s' g' i n v f f' := by
  have hr : i.index < r.nodes.size := (Array.getElem?_eq_some_iff.mp hbuilt).1
  let s₁ : Names := { s with resolved := (i, v) :: s.resolved }
  have hlook (x : InstId) : s₁.resolved.lookup x = if x = i then some v else s.resolved.lookup x := by
    simp only [s₁, List.lookup_cons]
    by_cases hx : x = i
    · simp [hx]
    · simp [hx, beq_false_of_ne hx]
  have hlater (g : FlowGraph) : Later H s g s₁ g := by
    refine .of_names g fun x w hx => ?_
    have hne : x ≠ i := fun heq => hi (heq ▸ hk.resolved x w hx)
    rw [hlook, if_neg hne, hx]
  have hknown {g' : FlowGraph} (hlife : ∀ j, aliveIn g' j = aliveIn g j) : Known r (i :: H) s₁ g' := by
    refine ⟨(hk.mono hr hlife).handled, fun x w hx => ?_, (hk.mono hr hlife).live⟩
    rw [hlook] at hx
    split at hx
    case isTrue heq => exact heq ▸ List.mem_cons_self
    case isFalse => exact List.mem_cons_of_mem i (hk.resolved x w hx)
  have hresolved : s₁.resolved.lookup i = some v := by rw [hlook, if_pos rfl]
  unfold leaveLocal
  rw [Renames.bind_iff, Renames.modify_iff]
  cases hused : n.isUsed with
  | true =>
    rw [if_pos rfl, Renames.pure_iff]
    exact ⟨⟨hp, hknown fun _ => rfl, hlater g, .refl g⟩, .refl, hf.concat hv, hresolved, by simp [hused],
      by simp [hused]⟩
  | false =>
    rw [if_neg Bool.false_ne_true, Renames.bind_iff, Renames.lift_iff]
    refine (leads_remove h hp hr hplaced).mono ?_
    rintro _ _ ⟨c, hc, rfl⟩
    rw [Renames.pure_iff]
    refine ⟨⟨hp.unplaced hc List.mem_cons_self hbuilt hlocal, hknown (aliveIn_unplaced g i c),
      (hlater g).trans (.unplaced s₁ g i c), .unplaced⟩, ?_, hf, hresolved, by simp [hused], fun _ => ?_⟩
    · exact Stays.withNode fun n => ⟨rfl, rfl⟩
    · show (g.layout.unplace i c).home? i = none
      rw [Layout.home?_unplace, if_pos rfl]

theorem Leaves.of_other {as : Frame} (hstore : ∀ slot v, n.inst ≠ .storeLocal slot v)
    (hload : ∀ slot, n.inst ≠ .loadLocal slot)
    (hf : f' = f ++ if n.inst.opcode = .pushArgument ∨ (n.inst.isDefinition = true ∧ n.isUsed = true) then [i] else
    []) : Leaves r g₀ s g i n as f f' := by
  unfold Leaves
  split
  case h_1 slot v hinst => exact absurd hinst (hstore slot v)
  case h_2 slot hinst => exact absurd hinst (hload slot)
  case h_3 => exact hf

theorem renames_readVariable (h : Base r t g₀) (hp : Progress r g₀ (i :: H) g) (hk : Known r H s g)
    (hr : i.index < r.nodes.size) {v : InstId} (hv : v.index < g₀.nodes.size) {α : Type} {x : Rename α}
    {post : α → Names → FlowGraph → Prop} (hx : ∀ s' g', Progress r g₀ (i :: H) g' → Known r H s' g' →
    Later H s g s' g' → SameInputs g g' →
      Stays i g g' → g'.layout = g.layout → Lives g₀ g' v → s'.resolved = s.resolved →
      Renames False (fun _ => True) g' s' x post) :
    Renames False (fun _ => True) g s (do
      if (← g.opcode v) == .phi && !(← g.isAlivePhi v) then
        Edit.revivePhi v
        modify fun s => { s with live := v :: s.live }
      x) post := by
  have hlt : v.index < g.nodes.size := hp.size ▸ hv
  obtain ⟨n₀, hn₀⟩ : ∃ n₀, g₀.nodes[v.index]? = some n₀ := ⟨_, Array.getElem?_eq_getElem hv⟩
  obtain ⟨m, hm, hev⟩ := hp.nodes v n₀ hn₀
  have hop : g.opcode v = .ok m.inst.opcode := FlowGraph.opcode_eq_ok.mpr ⟨m, hm, rfl⟩
  have halive : g.isAlivePhi v = .ok m.inst.isAlivePhi := FlowGraph.isAlivePhi_eq_ok.mpr ⟨m, hm, rfl⟩
  simp only [Renames.bind_iff, Renames.read_iff, hop, halive, Yields.ok_iff]
  split
  case isTrue hdead =>
    obtain ⟨hphi, hdead⟩ : m.inst.opcode = .phi ∧ m.inst.isAlivePhi = false := by simpa using hdead
    have hisPhi : m.inst.isPhi = true := by
      rw [hev.isPhi]
      exact h.isPhi_of_opcode hn₀ (hev.opcode.symm.trans hphi)
    have hnew : r.nodes.size ≤ v.index := by
      by_contra hlt
      have hr : r.nodes[v.index]? = some r.nodes[v.index] := Array.getElem?_eq_getElem (Nat.not_le.mp hlt)
      obtain rfl : r.nodes[v.index] = n₀ := by simpa [h.old v _ hr] using hn₀
      rw [hev.isPhi, h.isPhi_of_raw hr] at hisPhi
      cases hisPhi
    have hvH : v ∉ H := fun hmem => absurd (hk.handled v hmem) (Nat.not_lt.mpr hnew)
    have hvi : i ≠ v := fun heq => absurd hr (Nat.not_lt.mpr (heq ▸ hnew))
    have hlife (j : InstId) : aliveIn (g.withNode v fun n => { n with inst := n.inst.revive }) j =
        (aliveIn g j || decide (j = v)) := by
      unfold aliveIn
      rw [FlowGraph.nodes_withNode]
      by_cases hj : j = v
      · subst hj
        simp [hm, Inst.isAlivePhi_revive, hisPhi]
      · simp [hj]
    simp only [Renames.bind_iff, Renames.lift_iff, Edit.revivePhi, Leads.modifyNode_iff, Renames.modify_iff]
    refine ⟨fun _ => ?_, fun hle => absurd hlt (Nat.not_lt.mpr hle)⟩
    refine hx _ _ ?_ ?_ ?_ ?_ ?_ rfl ?_ rfl
    · exact hp.withNode (.inr hnew) fun n _ => ⟨⟨⟨fun _ a => a, .inr (by simp)⟩, rfl, rfl, rfl, rfl⟩, rfl, fun _ => rfl⟩
    · refine ⟨hk.handled, hk.resolved, fun j => ?_⟩
      rw [hlife, List.mem_cons, hk.live]
      simp [or_comm]
    · have hwith : Later H s g s (g.withNode v fun n => { n with inst := n.inst.revive }) :=
        .withNode hvH (fun j hj => by rw [hlife, hj, Bool.true_or]) fun _ => rfl
      exact hwith.trans (.of_names _ fun _ _ h => h)
    · exact SameInputs.withNode fun n _ hphi => ⟨by simpa using hphi, by simp⟩
    · intro m hm
      exact ⟨m, by rw [FlowGraph.nodes_withNode_ne hvi, hm], rfl, rfl⟩
    · intro _ _ _
      rw [hlife, decide_eq_true rfl, Bool.or_true]
  case isFalse hdead =>
    refine hx s g hp hk (.refl H s g) (.refl g) .refl rfl ?_ rfl
    intro n hn hphi
    obtain rfl : n₀ = n := by simpa [hn₀] using hn
    have hmphi : m.inst.opcode = .phi := Inst.opcode_of_isPhi (hev.isPhi.trans hphi)
    rw [aliveIn_eq hm]
    simpa [hmphi] using hdead

theorem renames_leaveResult (h : Base r t g₀) (hp : Progress r g₀ (i :: H) g) (hi : i ∉ H) (hk : Known r H s g)
    (hbuilt : r.nodes[i.index]? = some n) {m : Node} (hm : g.nodes[i.index]? = some m) {as : Frame}
    (hinst : m.inst = n.inst.withArgs as) (has : n.inst.args.length = as.length) (hplaced : g.isPlaced i = true)
    (hf : Sized r g₀ f) (hargs : ∀ a ∈ as, a.index < g₀.nodes.size) :
    Renames False (fun _ => True) g s (leaveResult i f) fun f' s' g' => Advances r g₀ H (i :: H) s g s' g' ∧
    Stays i g g' ∧
      Sized r g₀ f' ∧ Leaves r g₀ s' g' i n as f f' ∧ (n.inst.isLocal = false → n.inst.isDefinition = true →
        n.isUsed = true → n.inst.opcode ≠ .pushArgument → g'.Indexed i) := by
  have hr : i.index < r.nodes.size := (Array.getElem?_eq_some_iff.mp hbuilt).1
  have hnode : g.node i = .ok m := FlowGraph.node_eq_ok.mpr hm
  have hused : m.isUsed = n.isUsed := by
    obtain ⟨n₀, hn₀, hev⟩ := hp.exists_base hm
    obtain rfl : n = n₀ := by simpa [h.old i n hbuilt] using hn₀
    exact hev.isUsed
  unfold leaveResult
  rw [Renames.bind_iff, Renames.getThe_iff, Renames.bind_iff, Renames.read_iff, hnode, Yields.ok_iff, hused]
  split
  case h_1 slot v hstore =>
    rw [hinst] at hstore
    obtain ⟨a, hn, rfl⟩ := Inst.eq_storeLocal_of_withArgs hstore
    obtain ⟨v, rfl⟩ : ∃ v, as = [v] := List.length_eq_one_iff.mp (by rw [← has, hn]; rfl)
    rw [Renames.bind_iff, Renames.read_iff, Progress.variableCount h hp, Yields.ok_iff]
    split
    · rw [Renames.bind_iff, Renames.throwThe_iff]
      trivial
    case isFalse hslot =>
      have hlt : slot < f.length := Nat.lt_of_lt_of_le (Nat.not_le.mp hslot) hf.room
      have hv : v.index < g₀.nodes.size := hargs v List.mem_cons_self
      rw [Renames.bind_iff, Renames.read_iff, setSlot, if_pos hlt, Yields.ok_iff]
      refine (renames_leaveLocal h hp hi hk hbuilt (by rw [hn]; rfl) hplaced (hf.set hv slot) hv).mono ?_
      rintro f' s' g' ⟨hadv, hstays, hf', hleaves⟩
      refine ⟨hadv, hstays, hf', ?_, fun hlocal => by rw [hn] at hlocal; cases hlocal⟩
      simp only [Leaves, hn]
      exact ⟨Nat.not_le.mp hslot, v, rfl, hleaves⟩
  case h_2 slot hload =>
    rw [hinst] at hload
    have hn := Inst.eq_loadLocal_of_withArgs hload
    rw [Renames.bind_iff, Renames.read_iff, Progress.variableCount h hp, Yields.ok_iff]
    split
    · rw [Renames.bind_iff, Renames.throwThe_iff]
      trivial
    case isFalse hslot =>
      have hlt : slot < f.length := Nat.lt_of_lt_of_le (Nat.not_le.mp hslot) hf.room
      have hget : f[slot]? = some f[slot] := List.getElem?_eq_getElem hlt
      have hv : (f[slot]).index < g₀.nodes.size := hf.known _ (List.getElem_mem hlt)
      rw [Renames.bind_iff, Renames.read_iff, itemAt, hget, orFault, Yields.ok_iff]
      refine renames_readVariable h hp hk hr hv ?_
      intro s₁ g₁ hp₁ hk₁ hlater hinputs hstays hlayout hlives hres
      have hplaced₁ : g₁.isPlaced i = true := by rwa [FlowGraph.isPlaced, hlayout]
      refine (renames_leaveLocal h hp₁ hi hk₁ hbuilt (by rw [hn]; rfl) hplaced₁ hf hv).mono ?_
      rintro f' s' g' ⟨hadv, hstays', hf', hleaves⟩
      refine ⟨⟨hadv.progress, hadv.known, hlater.trans hadv.later, hinputs.trans hadv.inputs⟩,
        hstays.trans hstays', hf', ?_, fun hlocal => by rw [hn] at hlocal; cases hlocal⟩
      simp only [Leaves, hn]
      exact ⟨Nat.not_le.mp hslot, _, hget, hlives.later hadv.later, hleaves⟩
  case h_3 hstore hload =>
    have hn₁ : ∀ slot v, n.inst ≠ .storeLocal slot v := fun slot v hn =>
      hstore slot _ (hinst.trans (by rw [hn]; rfl))
    have hn₂ : ∀ slot, n.inst ≠ .loadLocal slot := fun slot hn => hload slot (hinst.trans (by rw [hn]; rfl))
    have hop : m.inst.opcode = n.inst.opcode := by rw [hinst, Inst.withArgs, Inst.opcode_mapArgs]
    have hdef : m.inst.isDefinition = n.inst.isDefinition := by rw [hinst, Inst.withArgs, Inst.isDefinition_mapArgs]
    have hsize : i.index < g₀.nodes.size := by
      have hlt := (Array.getElem?_eq_some_iff.mp hm).1
      rwa [hp.size] at hlt
    have hadv : Advances r g₀ H (i :: H) s g s g := ⟨hp, hk.mono hr fun _ => rfl, .refl H s g, .refl g⟩
    rw [hop, hdef]
    split
    case isTrue hpush =>
      rw [Renames.pure_iff]
      exact ⟨hadv, .refl, hf.concat hsize, .of_other hn₁ hn₂ (by simp [hpush]), fun _ _ _ hne => absurd hpush hne⟩
    case isFalse hpush =>
      split
      case isTrue hvalue =>
        have hvalue : n.inst.isDefinition = true ∧ n.isUsed = true := by simpa using hvalue
        rw [Renames.bind_iff, Renames.discard_iff, Renames.lift_iff, Leads.allocSsaIndex_iff]
        refine ⟨fun _ => ?_, fun hle => absurd (hp.size ▸ hsize) (Nat.not_lt.mpr hle)⟩
        rw [Renames.pure_iff]
        refine ⟨⟨hp.numbered (.inl List.mem_cons_self), hk.mono hr (aliveIn_numbered g i), .numbered s g i, .numbered⟩,
          ?_, hf.concat hsize, .of_other hn₁ hn₂ (by rw [if_pos (.inr hvalue)]),
          fun _ _ _ _ => FlowGraph.indexed_numbered (hp.size ▸ hsize)⟩
        exact Stays.withNode (g := g) (f := fun n => { n with ssaIndex := some g.nextSsaIndex }) fun n => ⟨rfl, rfl⟩
      case isFalse hvalue =>
        rw [Renames.pure_iff]
        have hvalue : ¬ (n.inst.isDefinition = true ∧ n.isUsed = true) := by simpa using hvalue
        exact ⟨hadv, .refl, hf, .of_other hn₁ hn₂ (by rw [if_neg (not_or.mpr ⟨hpush, hvalue⟩), List.append_nil]),
          fun _ hdef hused => absurd ⟨hdef, hused⟩ hvalue⟩

/-! ## The whole instruction -/

theorem leads_attachEnv (h : Base r t g₀) (hp : Progress r g₀ (i :: H) g) (hi : i ∉ H) (hr : i.index < r.nodes.size)
    {m : Node} (hm : g.nodes[i.index]? = some m) : Leads False g (attachEnv i f) fun _ g' => Popping r g₀ H s i g g' ∧
      g'.nodes[i.index]? = some { m with env := some ⟨f, r.parameterCount⟩ } := by
  have hlt : i.index < g.nodes.size := (Array.getElem?_eq_some_iff.mp hm).1
  have hcount : g.parameterCount = r.parameterCount := hp.outline.parameterCount.trans h.counts.1
  simp only [attachEnv, Leads.bind_iff, Leads.get_iff, Leads.modifyNode_iff, hcount]
  refine ⟨fun _ => ⟨?_, ?_⟩, fun hle => absurd hlt (Nat.not_lt.mpr hle)⟩
  · exact Popping.withNode hp hi hr h (fun n _ => ⟨⟨⟨fun _ a => a, .inl (by simp)⟩, rfl, rfl, rfl, rfl⟩, rfl⟩) fun _ =>
      rfl
  · rw [FlowGraph.nodes_withNode_self, hm]
    rfl

theorem renames_attachEnv (h : Base r t g₀) (hp : Progress r g₀ (i :: H) g) (hi : i ∉ H) (hr : i.index < r.nodes.size)
    {m : Node} (hm : g.nodes[i.index]? = some m) {c : Bool} {α : Type} {x : Rename α}
    {post : α → Names → FlowGraph → Prop}
    (hx : ∀ (g' : FlowGraph) (m' : Node), Popping r g₀ H s i g g' → g'.nodes[i.index]? = some m' →
      m'.inst = m.inst → m'.env = (if c then some ⟨f, r.parameterCount⟩ else m.env) →
      Renames False (fun _ => True) g' s x post) :
    Renames False (fun _ => True) g s (do
      if c then attachEnv i f
      x) post := by
  cases c with
  | false => exact hx g m ⟨hp, .refl H s g, .refl g, rfl, fun _ => rfl⟩ hm rfl rfl
  | true =>
    simp only [if_true, Renames.bind_iff, Renames.lift_iff]
    exact (leads_attachEnv h hp hi hr hm).mono fun _ g' hg' => hx g' _ hg'.1 hg'.2 rfl rfl

/-- An instruction that was not come to yet takes the frame on. -/
theorem renames_renameInst (h : Base r t g₀) (hp : Progress r g₀ H g) (hi : i ∉ H) (hk : Known r H s g)
    (hbuilt : r.nodes[i.index]? = some n) (hf : Sized r g₀ f) :
    Renames False (fun _ => True) g s (renameInst b f i) fun f' s' g' => Advances r g₀ H (i :: H) s g s' g' ∧
    Sized r g₀ f' ∧
      Step r g₀ s' g' i f f' := by
  have hr : i.index < r.nodes.size := (Array.getElem?_eq_some_iff.mp hbuilt).1
  have hn : g.nodes[i.index]? = some n := hp.untouched i n hbuilt hi
  have hplaced : g.isPlaced i = true := by
    rw [FlowGraph.isPlaced, Layout.isPlaced_iff, ← Option.ne_none_iff_exists']
    exact fun hnone => hi (hp.gone i n hbuilt hnone).1
  have hp₀ : Progress r g₀ (i :: H) g := hp.mono (List.subset_cons_self i H)
  have hinst : g.inst i = .ok n.inst := FlowGraph.inst_eq_ok.mpr ⟨n, hn, rfl⟩
  unfold renameInst
  rw [Renames.bind_iff, Renames.getThe_iff, Renames.bind_iff, Renames.read_iff, hinst, Yields.ok_iff]
  refine renames_attachEnv h hp₀ hi hr hn ?_
  intro g₁ m₁ hpop₁ hm₁ hinst₁ henv₁
  rw [Renames.bind_iff]
  refine (renames_popInputs h hpop₁.progress hi hbuilt hk.resolved (Nat.le_refl _) hm₁ (fun j _ => by rw [hinst₁])
    hf.room).mono ?_
  rintro f₁ _ g₂ ⟨rfl, hpop₂, hroom, as, rfl, has, hconsumed, m₂, hm₂, hinst₂, henv₂⟩
  rw [Renames.bind_iff]
  refine (renames_popArguments h hpop₂.progress n.inst.arguments hroom).mono ?_
  rintro rest _ _ ⟨rfl, rfl, rfl, hroom⟩
  rw [List.take_length] at has hconsumed
  have hrest : Sized r g₀ rest := ⟨by assumption, fun v hv => hf.known v (by simp [hv])⟩
  have hfresh : n.env = none := (h.raw.fresh i n hbuilt).1
  have hleave : ∀ (g₃ : FlowGraph) (m₃ : Node), Popping r g₀ H s i g₂ g₃ → g₃.nodes[i.index]? = some m₃ →
      m₃.inst = m₂.inst → m₃.env = resumeAt n.inst (rest ++ n.inst.arguments ++ as) rest r.parameterCount →
      Renames False (fun _ => True) g₃ s (leaveResult i rest) fun f' s' g' => Advances r g₀ H (i :: H) s g s' g' ∧
      Sized r g₀ f' ∧
        Step r g₀ s' g' i (rest ++ n.inst.arguments ++ as) f' := by
    intro g₃ m₃ hpop₃ hm₃ hinst₃ henv₃
    have hpop : Popping r g₀ H s i g g₃ := (hpop₁.trans hpop₂).trans hpop₃
    have hplaced₃ : g₃.isPlaced i = true := by
      rw [FlowGraph.isPlaced, Layout.isPlaced_iff, hpop.home]
      exact Layout.isPlaced_iff.mp hplaced
    have hrenamed : m₃.inst = n.inst.withArgs as := by rw [hinst₃, hinst₂, hinst₁]
    have hk₃ : Known r H s g₃ := ⟨hk.handled, hk.resolved, fun j => by rw [hpop.life j, hk.live]⟩
    refine (renames_leaveResult h hpop.progress hi hk₃ hbuilt hm₃ hrenamed has.length_eq hplaced₃ hrest
      fun a ha => hf.known a (by simp [ha])).mono ?_
    rintro f' s' g' ⟨hadv, hstays, hf', hleaves, hindexed⟩
    refine ⟨⟨hadv.progress, hadv.known, hpop.later.trans hadv.later, hpop.inputs.trans hadv.inputs⟩, hf',
      n, as, rest, hbuilt, rfl, hrest.room, has.imp fun a v ha => resolve_later ha hadv.later, ?_, ?_, hleaves,
      hindexed⟩
    · obtain ⟨m', hm', hinst', henv'⟩ := hstays m₃ hm₃
      exact ⟨m', hm', hinst'.trans hrenamed, henv'.trans henv₃⟩
    · exact fun a ha hloc => hadv.later.gone a (hpop₃.later.gone a (hconsumed a ha hloc))
  have hsame : Popping r g₀ H s i g₂ g₂ := ⟨hpop₂.progress, .refl H s g₂, .refl g₂, rfl, fun _ => rfl⟩
  have henv : m₂.env = if (n.inst.canDeoptimize || n.inst.opcode == .goto) = true then
      some ⟨rest ++ n.inst.arguments ++ as, r.parameterCount⟩ else none := by rw [henv₂, henv₁, hfresh]
  split
  case isTrue hbranch =>
    have henv₂' : g₂.env i = .ok m₂.env := FlowGraph.env_eq_ok.mpr ⟨m₂, hm₂, rfl⟩
    rw [Renames.bind_iff, Renames.getThe_iff, Renames.bind_iff, Renames.read_iff, henv₂', Yields.ok_iff]
    refine renames_attachEnv h hpop₂.progress hi hr hm₂ ?_
    intro g₃ m₃ hpop₃ hm₃ hinst₃ henv₃
    refine hleave g₃ m₃ hpop₃ hm₃ hinst₃ ?_
    rw [henv₃, henv, resumeAt, if_pos hbranch]
    split <;> rfl
  case isFalse hbranch =>
    refine hleave g₂ m₂ hsame hm₂ rfl ?_
    rw [henv, resumeAt, if_neg hbranch]

end Steps

end Ssa

end Midend

import Midend.Proofs.Constants.Settled
import Midend.Proofs.Execution.Definite

/-! # Rounds of the analysis

Each round visits one block or the users of one definition. On a graph in order a visit cannot fail, and all that it
does is one of two things, some number of times: it gives a definition the value that its inputs tell now, or it marks
a block that a marked one leads to.
-/

namespace Midend.Constants

open Execution Ssa FlowGraph Relation

/-! ## Running with a bound -/

/-- One round: what waits first is visited. Nothing comes out if nothing waits. -/
def round (g : FlowGraph) (f : Facts) : Except Fault (Option Facts) :=
  match f.blocks, f.definitions with
  | b :: rest, _ => do return some (← visitBlock g b { f with blocks := rest }).2
  | [], d :: rest => do return some (← visitUsers g d { f with definitions := rest }).2
  | [], [] => return none

def start (g : FlowGraph) : Except Fault Facts := do
  let reachable ← (← NumberSet.ofCapacity g.blocks.size).insert graphEntry.index
  return { reachable, blocks := [graphEntry] }

def analyzeWithin (g : FlowGraph) (steps : Nat) : Except Fault Facts := do
  return (← drain g steps (← start g)).2

variable {g : FlowGraph} {f f' : Facts} {i d phi : InstId} {n m : Node} {b t : BlockId} {x : Knowledge}

theorem run_bind {α β : Type} {m : Analyze α} {k : α → Analyze β} {a : α} (h : m f = .ok (a, f')) :
    (m >>= k) f = k a f' := by
  show Except.bind (m f) _ = _
  rw [h]
  rfl

theorem get_bind {β : Type} (k : Facts → Analyze β) : ((get : Analyze Facts) >>= k) f = k f f :=
  rfl

theorem drain_of_some (steps : Nat) (h : round g f = .ok (some f')) : drain g (steps + 1) f = drain g steps f' := by
  unfold round at h
  rw [drain, get_bind]
  split at h
  case h_1 b rest hblocks =>
    obtain ⟨⟨⟨⟩, f₁⟩, hf₁, hf'⟩ := bind_eq_ok.mp h
    obtain rfl := Option.some_inj.mp (pure_eq_ok.mp hf')
    rw [hblocks]
    exact (run_bind rfl).trans (run_bind hf₁)
  case h_2 d rest hblocks hdefs =>
    obtain ⟨⟨⟨⟩, f₁⟩, hf₁, hf'⟩ := bind_eq_ok.mp h
    obtain rfl := Option.some_inj.mp (pure_eq_ok.mp hf')
    rw [hblocks] at hf₁ ⊢
    rw [hdefs]
    exact (run_bind rfl).trans (run_bind hf₁)
  case h_3 => cases pure_eq_ok.mp h

theorem drain_of_none (steps : Nat) (hblocks : f.blocks = []) (hdefs : f.definitions = []) :
    drain g (steps + 1) f = .ok ((), f) := by
  rw [drain, get_bind, hblocks, hdefs]
  rfl

theorem analyze_eq (g : FlowGraph) : analyze g = analyzeWithin g (visitLimit g) := by
  unfold analyze analyzeWithin start
  cases hr : NumberSet.ofCapacity g.blocks.size with
  | error => rfl
  | ok r =>
    have hempty : r.contains graphEntry.index = false := by
      unfold NumberSet.ofCapacity NumberSet.extend at hr
      split at hr
      · rw [← Except.ok.inj hr]
        rfl
      · cases hr
    have hreach : reach graphEntry { reachable := r } = do
        return ((), { reachable := ← r.insert graphEntry.index, blocks := [graphEntry] }) := by
      unfold reach
      rw [get_bind]
      simp only [Facts.isReachable, hempty]
      cases hr' : r.insert graphEntry.index <;> rfl
    show Except.bind (reach graphEntry { reachable := r } >>= fun s => drain g (visitLimit g) s.2) (pure ·.2) = _
    rw [hreach]
    simp only [bind, Except.bind, pure, Except.pure]
    cases r.insert graphEntry.index <;> rfl

/-! ## Events -/

/-- What the inputs of a definition tell of it, `unknown` if they tell nothing. -/
def given (g : FlowGraph) (f : Facts) (i : InstId) : Knowledge :=
  match g.nodes[i.index]? with
  | none => .unknown
  | some n =>
    if n.inst.isPhi then phiValue f ((n.block.elim [] (predsOf g)).zip n.inst.args)
    else (transfer g f i n.inst).toOption.join.getD .unknown

/-- The facts once more is known of a definition, which waits if it is used. -/
def Facts.learn (f : Facts) (d : InstId) (x : Knowledge) (used : Bool) : Facts :=
  { f with
    values := f.values.insert d.index x
    definitions := if used && d ∉ f.definitions then d :: f.definitions else f.definitions }

/-- The instruction is in a block that can be reached. -/
def InCode (g : FlowGraph) (i : InstId) : Prop := ∃ b, g.Reachable b ∧ i ∈ g.insts b

inductive Event (g : FlowGraph) (f : Facts) : Facts → Prop
  /-- A definition gets the value that its inputs tell. -/
  | learn {d : InstId} {n : Node} (hn : g.nodes[d.index]? = some n) (hnew : ¬ (f.value d == given g f d) = true)
      (hcode : ∀ c, n.inst = .compare c → InCode g d) :
      Event g f (f.learn d (given g f d) !n.inputUses.isEmpty)
  /-- A block is marked that a marked one leads to. -/
  | mark {p b : BlockId} {r : NumberSet} (hp : f.isReachable p = true) (hedge : g.Edge p b)
      (hnew : ¬ f.isReachable b = true) (hr : f.reachable.insert b.index = .ok r) :
      Event g f { f with reachable := r, blocks := b :: f.blocks }

abbrev Evolves (g : FlowGraph) : Facts → Facts → Prop := ReflTransGen (Event g)

namespace Facts

theorem value_learn {used : Bool} (a : InstId) : (f.learn d x used).value a = if a = d then x else f.value a :=
  value_insert a

@[simp] theorem blocks_learn {used : Bool} : (f.learn d x used).blocks = f.blocks := rfl

theorem mem_learn {used : Bool} {a : InstId} :
    a ∈ (f.learn d x used).definitions ↔ a ∈ f.definitions ∨ a = d ∧ used = true := by
  unfold learn
  by_cases hd : d ∈ f.definitions <;> cases used <;> simp [hd]
  · rintro rfl
    exact hd
  · exact or_comm

theorem isReachable_mark {r : NumberSet} (bs : List BlockId) (hr : f.reachable.insert b.index = .ok r) (c : BlockId) :
    ({ f with reachable := r, blocks := bs } : Facts).isReachable c = true ↔ c = b ∨ f.isReachable c = true := by
  rw [← BlockId.index_inj]
  exact NumberSet.contains_of_insert hr c.index

end Facts

theorem given_of_phi (hn : g.nodes[i.index]? = some n) (hphi : n.inst.isPhi = true) (hb : n.block = some b) :
    given g f i = phiValue f ((predsOf g b).zip n.inst.args) := by
  simp [given, hn, hphi, hb]

theorem given_of_transfer (hn : g.nodes[i.index]? = some n) (hphi : n.inst.isPhi = false) {r : Option Knowledge}
    (hr : transfer g f i n.inst = .ok r) : given g f i = r.getD .unknown := by
  simp [given, hn, hphi, hr, Except.toOption]

/-! ### What every change keeps -/

/-- The facts speak of the graph: whatever is marked is reached along marked blocks, and the lists are of blocks that
are marked and of definitions that exist. -/
structure Sound (g : FlowGraph) (f : Facts) : Prop where
  entry : f.isReachable graphEntry = true
  path : ∀ b, f.isReachable b = true → ∃ path, g.IsPath path ∧ path.headD graphEntry = b ∧
    ∀ c ∈ path, f.isReachable c = true
  blocks : ∀ b ∈ f.blocks, f.isReachable b = true
  definitions : ∀ d ∈ f.definitions, d.index < g.nodes.size
  rows : g.blocks.size / 64 < f.reachable.rows

/-- A graph as the analysis expects it. It is in SSA form and accepted by the check, what is read produces a value, and
listed uses are by instructions of the graph. There are no constraints, and a set of numbers has room for its blocks. -/
structure Analyzable (g : FlowGraph) : Prop where
  form : SsaForm g
  definite : Definite g
  users : ∀ n ∈ g.nodes, ∀ u ∈ n.inputUses, u.user.index < g.nodes.size
  unconstrained : ∀ n ∈ g.nodes, ∀ range inputs, n.inst ≠ .constraint range inputs
  room : g.blocks.size ≤ NumberSet.limit

theorem Sound.reachable (hs : Sound g f) (hb : f.isReachable b = true) : g.Reachable b := by
  obtain ⟨path, hpath, rfl, -⟩ := hs.path b hb
  exact hpath.reachable

theorem Event.isReachable (h : Event g f f') (hb : f.isReachable b = true) : f'.isReachable b = true := by
  cases h with
  | learn => exact hb
  | mark _ _ _ hr => exact (Facts.isReachable_mark _ hr b).mpr (.inr hb)

theorem Evolves.isReachable (h : Evolves g f f') (hb : f.isReachable b = true) : f'.isReachable b = true := by
  induction h with
  | refl => exact hb
  | tail _ hlast ih => exact hlast.isReachable ih

theorem Event.visited_iff (h : Event g f f') : Visited f' b ↔ Visited f b := by
  cases h with
  | learn => exact .rfl
  | @mark p c r _ _ hnew hr =>
    unfold Visited
    rw [Facts.isReachable_mark _ hr, List.mem_cons, not_or]
    constructor
    · rintro ⟨rfl | hb, hne, hwaits⟩
      · exact absurd rfl hne
      · exact ⟨hb, hwaits⟩
    · rintro ⟨hb, hwaits⟩
      exact ⟨.inr hb, fun heq => hnew (heq ▸ hb), hwaits⟩

theorem Evolves.visited_iff (h : Evolves g f f') : Visited f' b ↔ Visited f b := by
  induction h with
  | refl => exact .rfl
  | tail _ hlast ih => exact hlast.visited_iff.trans ih

theorem Analyzable.lt_size (hg : Analyzable g) (hb : g.Reachable b) : b.index < g.blocks.size := by
  obtain ⟨ps, hps, -⟩ := (hg.form.block_holds hb).phis
  obtain ⟨all, hall, -⟩ := livePhis_eq_ok.mp hps
  obtain ⟨k, hk, -⟩ := phis_eq_ok.mp hall
  exact (Array.getElem?_eq_some_iff.mp hk).1

theorem Event.sound (hg : Analyzable g) (hs : Sound g f) (h : Event g f f') : Sound g f' := by
  cases h with
  | @learn d n hn =>
    refine ⟨hs.entry, hs.path, hs.blocks, fun a ha => ?_, hs.rows⟩
    obtain ha | ⟨rfl, -⟩ := Facts.mem_learn.mp ha
    · exact hs.definitions a ha
    · exact (Array.getElem?_eq_some_iff.mp hn).1
  | @mark p b r hp hedge hnew hr =>
    have hmarked (c : BlockId) := Facts.isReachable_mark (b :: f.blocks) hr c
    refine ⟨(hmarked _).mpr (.inr hs.entry), fun c hc => ?_, fun c hc => ?_, hs.definitions, ?_⟩
    · obtain rfl | hc := (hmarked c).mp hc
      · obtain ⟨path, hpath, rfl, hall⟩ := hs.path p hp
        refine ⟨c :: path, .cons hedge hpath, rfl, List.forall_mem_cons.mpr ⟨(hmarked c).mpr (.inl rfl), ?_⟩⟩
        exact fun a ha => (hmarked a).mpr (.inr (hall a ha))
      · obtain ⟨path, hpath, hhead, hall⟩ := hs.path c hc
        exact ⟨path, hpath, hhead, fun a ha => (hmarked a).mpr (.inr (hall a ha))⟩
    · obtain rfl | hc := List.mem_cons.mp hc
      · exact (hmarked c).mpr (.inl rfl)
      · exact (hmarked c).mpr (.inr (hs.blocks c hc))
    · have hlt := hg.lt_size ((hs.reachable hp).tail hedge)
      have hrows : b.index / 64 < f.reachable.rows := (Nat.div_le_div_right hlt.le).trans_lt hs.rows
      unfold NumberSet.insert at hr
      rw [if_pos hrows] at hr
      rw [← pure_eq_ok.mp hr]
      exact hs.rows

theorem Evolves.sound (hg : Analyzable g) (hs : Sound g f) (h : Evolves g f f') : Sound g f' := by
  induction h with
  | refl => exact hs
  | tail _ hlast ih => exact hlast.sound hg ih

/-! ### Keeping abreast -/

/-- What is known of the definition is what its inputs tell, or something waits that it will be looked at again for: an
input, or a predecessor of the block of a phi. -/
def Abreast (g : FlowGraph) (f : Facts) (i : InstId) : Prop :=
  ∀ n, g.nodes[i.index]? = some n → Listed g n.inst →
    given g f i = .unknown ∨ (f.value i == given g f i) = true ∨ Pending f n.inst ∨
      n.inst.isPhi = true ∧ ∃ b p, n.block = some b ∧ p ∈ predsOf g b ∧ p ∈ f.blocks

theorem phiValue_congr {inputs : List (BlockId × InstId)}
    (hreach : ∀ q ∈ inputs, f'.isReachable q.1 = f.isReachable q.1)
    (hvalues : ∀ q ∈ inputs, f'.value q.2 = f.value q.2) :
    phiValue f' inputs = phiValue f inputs := by
  unfold phiValue
  rw [List.filter_congr hreach]
  exact List.foldl_ext _ _ _ fun v q hq => congrArg v.join (hvalues q (List.mem_of_mem_filter hq))

theorem given_congr (hn : g.nodes[i.index]? = some n) (hargs : ∀ a ∈ n.inst.args, f'.value a = f.value a)
    (hpreds : n.inst.isPhi = true → ∀ b, n.block = some b → ∀ p ∈ predsOf g b, f'.isReachable p = f.isReachable p) :
    given g f' i = given g f i := by
  unfold given
  rw [hn]
  dsimp only
  split
  case isTrue hphi =>
    refine phiValue_congr (fun q hq => ?_) fun q hq => hargs q.2 (List.of_mem_zip hq).2
    cases hb : n.block with
    | none => simp [hb] at hq
    | some b =>
      rw [hb] at hq
      exact hpreds hphi b hb q.1 (List.of_mem_zip hq).1
  case isFalse => rw [transfer_congr hargs]

theorem abreast_learn (hm : g.nodes[d.index]? = some m) (hi : i = d ∨ Abreast g f i) :
    Abreast g (f.learn d (given g f d) !m.inputUses.isEmpty) i := by
  intro n hn hlisted
  by_cases hd : d ∈ n.inst.args
  · obtain ⟨k, hk, huses⟩ := hlisted d hd
    obtain rfl := Option.some_inj.mp (hm.symm.trans hk)
    exact .inr (.inr (.inl ⟨d, hd, Facts.mem_learn.mpr (.inr ⟨rfl, by simpa using huses⟩)⟩))
  have hgiven : given g (f.learn d (given g f d) !m.inputUses.isEmpty) i = given g f i :=
    given_congr hn (fun a ha => by rw [Facts.value_learn, if_neg (ne_of_mem_of_not_mem ha hd)]) fun _ _ _ _ _ => rfl
  rw [hgiven, Facts.value_learn]
  obtain rfl | hi := hi
  · rw [if_pos rfl]
    exact .inr (.inl (Knowledge.same_refl _))
  obtain hnone | hsame | ⟨a, ha, hwaits⟩ | hphi := hi n hn hlisted
  · exact .inl hnone
  · refine .inr (.inl ?_)
    split
    case isTrue hid => rw [hid, Knowledge.same_refl]
    case isFalse => exact hsame
  · exact .inr (.inr (.inl ⟨a, ha, Facts.mem_learn.mpr (.inl hwaits)⟩))
  · exact .inr (.inr (.inr hphi))

theorem Event.abreast (h : Event g f f') (hi : Abreast g f i) : Abreast g f' i := by
  cases h with
  | learn hn => exact abreast_learn hn (.inr hi)
  | @mark p b r _ _ _ hr =>
    intro n hn hlisted
    by_cases hphi : n.inst.isPhi = true ∧ ∃ c, n.block = some c ∧ b ∈ predsOf g c
    · obtain ⟨hphi, c, hc, hb⟩ := hphi
      exact .inr (.inr (.inr ⟨hphi, c, b, hc, hb, List.mem_cons_self⟩))
    have hgiven : given g { f with reachable := r, blocks := b :: f.blocks } i = given g f i := by
      refine given_congr hn (fun _ _ => rfl) fun hisPhi c hc q hq => Bool.eq_iff_iff.mpr ?_
      rw [Facts.isReachable_mark _ hr, or_iff_right]
      rintro rfl
      exact hphi ⟨hisPhi, c, hc, hq⟩
    rw [hgiven]
    refine (hi n hn hlisted).imp_right (.imp_right (.imp_right ?_))
    rintro ⟨hisPhi, c, q, hc, hq, hwaits⟩
    exact ⟨hisPhi, c, q, hc, hq, List.mem_cons_of_mem _ hwaits⟩

theorem Evolves.abreast (h : Evolves g f f') (hi : Abreast g f i) : Abreast g f' i := by
  induction h with
  | refl => exact hi
  | tail _ hlast ih => exact hlast.abreast ih

/-! ## Visits -/

/-- The visit succeeds. All that it does are events, and `post` holds at the end. -/
def Runs (g : FlowGraph) (f : Facts) (v : Analyze Unit) (post : Facts → Prop) : Prop :=
  ∃ f', v f = .ok ((), f') ∧ Evolves g f f' ∧ post f'

namespace Runs

variable {v : Analyze Unit} {post post' : Facts → Prop}

theorem done (h : post f) : Runs g f (pure ()) post := ⟨f, rfl, .refl, h⟩

theorem read {α : Type} {y : Except Fault α} {a : α} {k : α → Analyze Unit} (hy : y = .ok a)
    (h : Runs g f (k a) post) : Runs g f (liftM y >>= k) post := by
  subst hy
  exact h

theorem get {k : Facts → Analyze Unit} (h : Runs g f (k f) post) : Runs g f (MonadState.get >>= k) post := h

theorem bind {k : Unit → Analyze Unit} (h : Runs g f v fun f₁ => Runs g f₁ (k ()) post) :
    Runs g f (v >>= k) post := by
  obtain ⟨f₁, hf₁, hevolves, f₂, hf₂, hevolves', hpost⟩ := h
  exact ⟨f₂, (run_bind hf₁).trans hf₂, hevolves.trans hevolves', hpost⟩

theorem mono (h : Runs g f v post) (himp : ∀ f', Evolves g f f' → post f' → post' f') : Runs g f v post' := by
  obtain ⟨f', hf', hevolves, hpost⟩ := h
  exact ⟨f', hf', hevolves, himp f' hevolves hpost⟩

theorem forM {α : Type} {xs : List α} {k : α → Analyze Unit} {P : α → Facts → Prop}
    (hstep : ∀ a ∈ xs, ∀ f₁, Evolves g f f₁ → Runs g f₁ (k a) (P a))
    (hkept : ∀ a f₁ f₂, Evolves g f₁ f₂ → P a f₁ → P a f₂) : Runs g f (xs.forM k) fun f' => ∀ a ∈ xs, P a f' := by
  induction xs generalizing f with
  | nil => exact done (by simp)
  | cons a xs ih =>
    obtain ⟨hhead, htail⟩ := List.forall_mem_cons.mp hstep
    show Runs g f (k a >>= fun _ => xs.forM k) _
    refine bind ((hhead f .refl).mono fun f₁ h₁ hpa => ?_)
    refine (ih fun b hb f₂ h₂ => htail b hb f₂ (h₁.trans h₂)).mono fun f₂ h₂ hall => ?_
    exact List.forall_mem_cons.mpr ⟨hkept a f₁ f₂ h₂ hpa, hall⟩

end Runs

theorem runs_setValue (hn : g.nodes[d.index]? = some n) (hx : given g f d = x)
    (hcode : ∀ c, n.inst = .compare c → InCode g d) :
    Runs g f (setValue g d x) fun f' => Abreast g f' d := by
  subst hx
  unfold setValue
  refine .get ?_
  split
  case isTrue hsame => exact .done fun _ _ _ => .inr (.inl hsame)
  case isFalse hnew =>
    refine .read (inputUses_eq_ok.mpr ⟨n, hn, rfl⟩) ?_
    exact ⟨_, rfl, .single (.learn hn hnew hcode), abreast_learn hn (.inl rfl)⟩

theorem runs_visitPhi (hg : Analyzable g) (hphi : phi ∈ phisOf g b) :
    Runs g f (visitPhi g phi) fun f' => Abreast g f' phi := by
  obtain ⟨n, hn, hisPhi, hblock⟩ := hg.form.phis b phi hphi
  obtain ⟨k, hk, -⟩ := exists_of_mem_phisOf hphi
  unfold visitPhi
  refine .read (instBlock_eq_ok.mpr ⟨n, hn, hblock⟩) (.get (.read (preds_eq_ok.mpr ⟨k, hk, rfl⟩) ?_))
  refine .read (args_eq_ok.mpr ⟨n, hn, rfl⟩) (runs_setValue hn ?_ fun c hc => ?_)
  · rw [given_of_phi hn hisPhi hblock, predsOf, hk]
    rfl
  · rw [hc] at hisPhi
    cases hisPhi

/-- What a visit leaves of an instruction: it is abreast, and so are the phis that it leads to, unless their block
waits. -/
def Caught (g : FlowGraph) (f : Facts) (i : InstId) : Prop :=
  Abreast g f i ∧ ∀ n t, g.nodes[i.index]? = some n → n.inst = .goto t →
    t ∈ f.blocks ∨ ∀ phi, LivePhi g t phi → Abreast g f phi

theorem Event.mem_blocks (h : Event g f f') (hb : b ∈ f.blocks) : b ∈ f'.blocks := by
  cases h with
  | learn => exact hb
  | mark => exact List.mem_cons_of_mem _ hb

theorem Evolves.caught (h : Evolves g f f') (hi : Caught g f i) : Caught g f' i := by
  refine ⟨Evolves.abreast h hi.1, fun n t hn ht => (hi.2 n t hn ht).imp (fun hwaits => ?_) fun hall phi hphi => ?_⟩
  · induction h with
    | refl => exact hwaits
    | tail _ hlast ih => exact hlast.mem_blocks ih
  · exact Evolves.abreast h (hall phi hphi)

def InputsExist (g : FlowGraph) (e : Inst) : Prop := ∀ a ∈ e.args, ∃ m, g.nodes[a.index]? = some m

theorem exists_useClass {k : Nat} {a : InstId} (hn : g.nodes[i.index]? = some n) (hk : n.inst.args[k]? = some a)
    (ha : g.nodes[a.index]? = some m) : ∃ cls, g.useClass i k = .ok cls := by
  unfold useClass
  cases g.reachingClass? ⟨i, k⟩ with
  | some cls => exact ⟨cls, rfl⟩
  | none =>
    refine ⟨m.cls.getD m.ownClass, ?_⟩
    dsimp only
    rw [arg_eq_ok.mpr ⟨n, hn, hk⟩]
    show g.classOf a = _
    rw [classOf, node_eq_ok.mpr ha]
    rfl

theorem exists_compareNull {k : Nat} {negate : Bool} {cls : ClassId} (hcls : g.useClass i k = .ok cls) :
    ∃ x, compareNull g i k negate = .ok x := by
  unfold compareNull
  simp only [hcls, bind, Except.bind]
  split <;> exact ⟨_, rfl⟩

theorem exists_compareValue (cmp : Comparison) (hn : g.nodes[i.index]? = some n)
    (hargs : n.inst.args = [cmp.left, cmp.right]) (hexist : InputsExist g n.inst) :
    ∃ x, compareValue g f i cmp = .ok x := by
  obtain ⟨l, hl⟩ := hexist cmp.left (by simp [hargs])
  obtain ⟨r, hr⟩ := hexist cmp.right (by simp [hargs])
  obtain ⟨left, hleft⟩ := exists_useClass (k := 0) hn (by rw [hargs]; rfl) hl
  obtain ⟨right, hright⟩ := exists_useClass (k := 1) hn (by rw [hargs]; rfl) hr
  unfold compareValue
  dsimp only
  split
  case isFalse => exact ⟨_, rfl⟩
  unfold compareIdentity
  split
  case h_2 => exact exists_compareNull hright
  case h_3 => exact exists_compareNull hleft
  all_goals exact ⟨_, rfl⟩

theorem exists_transfer (hg : Analyzable g) (hn : g.nodes[i.index]? = some n) (hexist : InputsExist g n.inst) :
    ∃ r, transfer g f i n.inst = .ok r := by
  unfold transfer
  split
  case h_4 range inputs heq => exact absurd heq (hg.unconstrained n (Array.mem_of_getElem? hn) range inputs)
  case h_5 cmp hcompare =>
    obtain ⟨x, hx⟩ := exists_compareValue (f := f) _ hn (by rw [hcompare]; rfl) hexist
    exact ⟨some x, by rw [hx]; rfl⟩
  case h_8 a hload =>
    obtain ⟨m, hm⟩ := hexist a (by simp [hload, Inst.args])
    rw [inst_eq_ok.mpr ⟨m, hm, rfl⟩]
    cases m.inst <;> exact ⟨_, rfl⟩
  all_goals exact ⟨_, rfl⟩

/-- The instruction may be visited: it is there from the start, or in a marked block. -/
def Visitable (g : FlowGraph) (f : Facts) (i : InstId) : Prop :=
  i ∈ g.initialDefinitions ∨ ∃ b, f.isReachable b = true ∧ (i ∈ g.insts b ∨ i ∈ phisOf g b)

section Visits

variable (hg : Analyzable g) (hs : Sound g f)

include hg hs

theorem runs_reach {p : BlockId} (hp : f.isReachable p = true) (hedge : g.Edge p b) :
    Runs g f (reach b) fun f' => f.isReachable b = false → b ∈ f'.blocks := by
  unfold reach
  refine .get ?_
  split
  case isTrue hb => exact .done fun hno => by simp [hb] at hno
  case isFalse hb =>
    have hrows : b.index / 64 < f.reachable.rows :=
      (Nat.div_le_div_right (hg.lt_size ((hs.reachable hp).tail hedge)).le).trans_lt hs.rows
    obtain ⟨r, hr⟩ : ∃ r, f.reachable.insert b.index = .ok r := by
      unfold NumberSet.insert
      rw [if_pos hrows]
      exact ⟨_, rfl⟩
    exact .read hr ⟨_, rfl, .single (.mark hp hedge hb hr), fun _ => List.mem_cons_self⟩

theorem runs_visitPhis (hb : f.isReachable b = true) :
    Runs g f (visitPhis g b) fun f' => ∀ phi, LivePhi g b phi → Abreast g f' phi := by
  obtain ⟨ps, hps, -⟩ := (hg.form.block_holds (hs.reachable hb)).phis
  unfold visitPhis
  refine .read hps ?_
  refine (Runs.forM (P := fun phi f' => Abreast g f' phi) (fun phi hphi f₁ _ => ?_) fun phi f₁ f₂ h₂ hphi => ?_).mono
    fun f' _ hall phi hphi => hall phi ((mem_livePhis_iff hps).mpr hphi)
  · exact runs_visitPhi hg ((mem_livePhis_iff hps).mp hphi).1
  · exact Evolves.abreast h₂ hphi

theorem runs_visitGoto (hb : f.isReachable b = true) (hedge : g.Edge b t) :
    Runs g f (visitGoto g t) fun f' => t ∈ f'.blocks ∨ ∀ phi, LivePhi g t phi → Abreast g f' phi := by
  unfold visitGoto
  refine .get ?_
  split
  case isTrue ht => exact (runs_visitPhis hg hs ht).mono fun f' _ hall => .inr hall
  case isFalse ht => exact (runs_reach hg hs hb hedge).mono fun f' _ hwaits => .inl (hwaits (by simpa using ht))

theorem runs_visitBranch {cmp : Comparison} {onTrue onFalse : BlockId} (hb : f.isReachable b = true)
    (htrue : g.Edge b onTrue) (hfalse : g.Edge b onFalse) (hx : compareValue g f i cmp = .ok x) :
    Runs g f (visitBranch g i cmp onTrue onFalse) fun _ => True := by
  unfold visitBranch
  refine .get (.read hx ?_)
  split
  case h_1 => exact (runs_reach hg hs hb htrue).mono fun _ _ _ => trivial
  case h_2 => exact (runs_reach hg hs hb hfalse).mono fun _ _ _ => trivial
  all_goals
    refine .bind ((runs_reach hg hs hb htrue).mono fun f₁ h₁ _ => ?_)
    exact (runs_reach hg (h₁.sound hg hs) (Evolves.isReachable h₁ hb) hfalse).mono fun _ _ _ => trivial

/-- What may be visited is a phi of a block, or has its inputs and leads on from a marked block. -/
theorem Visitable.cases (hi : Visitable g f i) : ∃ n, g.nodes[i.index]? = some n ∧
    (n.inst.isPhi = true → ∃ b, i ∈ phisOf g b) ∧ (n.inst.isPhi = false → InputsExist g n.inst) ∧
    (n.inst.isTerminator = true → ∃ b, f.isReachable b = true ∧ ∀ t ∈ n.inst.successors, g.Edge b t) ∧
    ∀ c, n.inst = .compare c → InCode g i := by
  obtain hinitial | ⟨b, hb, hmem | hphi⟩ := hi
  · obtain ⟨n, hn, hgiven⟩ := hg.form.initial i hinitial
    refine ⟨n, hn, ?_⟩
    obtain ⟨k, hk⟩ | ⟨k, hk⟩ := Inst.eq_of_isGiven hgiven <;>
      simp [InputsExist, hk, Inst.args, Inst.isPhi, Inst.isTerminator, Inst.opcode, Opcode.isTerminator]
  · obtain ⟨n, last, hn, -, hholds⟩ := hg.definite.inst_holds (hs.reachable hb) hmem
    refine ⟨n, hn, fun hphi => ?_, fun _ a ha => ?_, fun hterm => ⟨b, hb, fun t ht => ?_⟩,
      fun _ _ => ⟨b, hs.reachable hb, hmem⟩⟩
    · exact absurd (Inst.opcode_of_isPhi hphi) (hg.definite.phisApart.opcode_ne_phi hg.definite.located hmem hn)
    · obtain ⟨k, hk⟩ := List.mem_iff_getElem?.mp ha
      obtain ⟨m, hm, -⟩ := (hholds.operands.inputs k a hk).listed
      exact ⟨m, hm⟩
    · exact hg.definite.edge_of_terminator (hs.reachable hb) hmem hn hterm ht
  · obtain ⟨n, hn, hisPhi, -⟩ := hg.form.phis b i hphi
    refine ⟨n, hn, fun _ => ⟨b, hphi⟩, fun hno => by simp [hisPhi] at hno, fun hterm => ?_, fun c hc => ?_⟩
    · rw [Inst.isTerminator, Inst.opcode_of_isPhi hisPhi] at hterm
      cases hterm
    · rw [hc] at hisPhi
      cases hisPhi

theorem runs_visitInst (hi : Visitable g f i) : Runs g f (visitInst g i) (Caught g · i) := by
  obtain ⟨n, hn, hphi, hexist, hleads, hcode⟩ := hi.cases hg hs
  have hcaught {f' : Facts} (habreast : Abreast g f' i) (hgoto : ∀ t, n.inst = .goto t → t ∈ f'.blocks ∨
      ∀ phi, LivePhi g t phi → Abreast g f' phi) : Caught g f' i :=
    ⟨habreast, fun m t hm ht => hgoto t (Option.some_inj.mp (hn.symm.trans hm) ▸ ht)⟩
  have habreast {f' : Facts} (hnone : transfer g f' i n.inst = .ok none) (hno : n.inst.isPhi = false) :
      Abreast g f' i :=
    fun _ _ _ => .inl (given_of_transfer hn hno hnone)
  unfold visitInst
  refine .read (inst_eq_ok.mpr ⟨n, hn, rfl⟩) ?_
  split
  case h_1 heq =>
    obtain ⟨b, hb⟩ := hphi (by rw [heq]; rfl)
    exact (runs_visitPhi hg hb).mono fun f' _ h => hcaught h fun t ht => by simp [heq] at ht
  case h_2 t heq =>
    obtain ⟨b, hb, hedges⟩ := hleads (by rw [heq]; rfl)
    refine (runs_visitGoto hg hs hb (hedges t (by simp [heq, Inst.successors]))).mono fun f' _ h => ?_
    refine hcaught (habreast (by rw [heq]; rfl) (by rw [heq]; rfl)) fun t' ht' => ?_
    rwa [← Inst.goto.inj (heq.symm.trans ht')]
  case h_3 cmp onTrue onFalse heq =>
    obtain ⟨b, hb, hedges⟩ := hleads (by rw [heq]; rfl)
    obtain ⟨x, hx⟩ := exists_compareValue (f := f) cmp hn (by rw [heq]; rfl) (hexist (by rw [heq]; rfl))
    refine (runs_visitBranch hg hs hb (hedges _ (by simp [heq, Inst.successors]))
      (hedges _ (by simp [heq, Inst.successors])) hx).mono fun f' _ _ => ?_
    exact hcaught (habreast (by rw [heq]; rfl) (by rw [heq]; rfl)) fun t ht => by simp [heq] at ht
  case h_4 hnoPhi hnoGoto _ =>
    have hno : n.inst.isPhi = false := by
      cases h : n.inst <;> first | rfl | exact absurd h (hnoPhi _ _ _ _)
    obtain ⟨r, hr⟩ := exists_transfer (f := f) hg hn (hexist hno)
    have hgiven := given_of_transfer hn hno hr
    refine .get (.read hr ?_)
    cases r with
    | none => exact .done (hcaught (fun _ _ _ => .inl hgiven) fun t ht => absurd ht (hnoGoto t))
    | some v => exact (runs_setValue hn hgiven hcode).mono fun f' _ h => hcaught h fun t ht => absurd ht (hnoGoto t)

theorem runs_visitInsts {is : List InstId} (his : ∀ i ∈ is, Visitable g f i) :
    Runs g f (is.forM (visitInst g)) fun f' => ∀ i ∈ is, Caught g f' i := by
  refine Runs.forM (P := fun i f' => Caught g f' i) (fun i hi f₁ h₁ => ?_) fun i f₁ f₂ h₂ hi => Evolves.caught h₂ hi
  refine runs_visitInst hg (h₁.sound hg hs) ((his i hi).imp_right ?_)
  rintro ⟨b, hb, hmem⟩
  exact ⟨b, Evolves.isReachable h₁ hb, hmem⟩

theorem runs_visitBlock (hne : b ≠ graphEntry) (hb : f.isReachable b = true) : Runs g f (visitBlock g b) fun f' =>
    (∀ phi, LivePhi g b phi → Abreast g f' phi) ∧ ∀ i ∈ g.insts b, Caught g f' i := by
  unfold visitBlock
  rw [if_neg hne]
  refine .bind ((runs_visitPhis hg hs hb).mono fun f₁ h₁ hphis => ?_)
  refine (runs_visitInsts hg (h₁.sound hg hs) fun i hi => .inr ⟨b, Evolves.isReachable h₁ hb, .inl hi⟩).mono ?_
  exact fun f' h' hinsts => ⟨fun phi hphi => Evolves.abreast h' (hphis phi hphi), hinsts⟩

theorem runs_visitEntry : Runs g f (visitBlock g graphEntry) fun f' => ∀ i ∈ g.initialDefinitions, Abreast g f' i := by
  obtain ⟨ss, hss, -⟩ := (hg.form.block_holds .refl).edges
  unfold visitBlock
  rw [if_pos rfl]
  refine .bind ((runs_visitInsts hg hs fun i hi => .inl hi).mono fun f₁ h₁ hinitial => .read hss ?_)
  refine (Runs.forM (P := fun _ _ => True) (fun c hc f₂ h₂ => ?_) fun _ _ _ _ _ => trivial).mono
    fun f' h' _ i hi => Evolves.abreast h' (hinitial i hi).1
  have hs₂ : Sound g f₂ := h₂.sound hg (h₁.sound hg hs)
  refine (runs_reach hg hs₂ hs₂.entry ?_).mono fun _ _ _ => trivial
  unfold FlowGraph.Edge
  rwa [next_of_ok hss]

theorem runs_visitUsers (hn : g.nodes[d.index]? = some n) : Runs g f (visitUsers g d) fun f' =>
    ∀ u ∈ n.inputUses, ∀ m b, g.nodes[u.user.index]? = some m → m.block = some b → f.isReachable b = true →
      Abreast g f' u.user := by
  unfold visitUsers
  refine .read (inputUses_eq_ok.mpr ⟨n, hn, rfl⟩) ?_
  refine Runs.forM (P := fun (u : Use) f' => ∀ (m : Node) b, g.nodes[u.user.index]? = some m → m.block = some b →
    f.isReachable b = true → Abreast g f' u.user) (fun u hu f₁ h₁ => ?_)
    fun u f₁ f₂ h₂ hu m b hm hb hreach => Evolves.abreast h₂ (hu m b hm hb hreach)
  obtain ⟨m, hm⟩ : ∃ m, g.nodes[u.user.index]? = some m :=
    ⟨_, Array.getElem?_eq_getElem (hg.users n (Array.mem_of_getElem? hn) u hu)⟩
  have hhome {P : Prop} (h : ∀ b, m.block = some b → f.isReachable b = true → P) :
      ∀ m' b, g.nodes[u.user.index]? = some m' → m'.block = some b → f.isReachable b = true → P :=
    fun m' b hm' => Option.some_inj.mp (hm.symm.trans hm') ▸ h b
  refine .read (instBlock_eq_ok.mpr ⟨m, hm, rfl⟩) ?_
  split
  case h_2 hnone => exact .done (hhome fun b hb => by simp [hnone] at hb)
  case h_1 b hb =>
    refine .get ?_
    split
    case isFalse hno =>
      refine .done (hhome fun c hc hreach => absurd (Evolves.isReachable h₁ hreach) ?_)
      rwa [← Option.some_inj.mp (hb.symm.trans hc)]
    case isTrue hreach =>
      refine (runs_visitInst hg (h₁.sound hg hs) ?_).mono fun f' _ hcaught => hhome fun _ _ _ => hcaught.1
      obtain hplaced | hinitial | ⟨k, hk, hphi⟩ := hg.definite.located.recorded _ m b hm hb
      · exact .inr ⟨b, hreach, .inl (hg.definite.located.mem_insts_iff.mpr hplaced)⟩
      · exact .inl hinitial
      · exact .inr ⟨b, hreach, .inr (by rwa [phisOf_eq hk])⟩

end Visits

end Midend.Constants

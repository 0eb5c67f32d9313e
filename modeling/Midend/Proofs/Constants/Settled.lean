import Midend.Proofs.Constants.Knowledge
import Midend.Proofs.Graph.Layout

/-! # Where the analysis settles

The analysis keeps a balance: in every block that was visited, what is known of an instruction is what its inputs tell,
unless one of the inputs waits to be looked at. Once nothing waits, everything is settled.
-/

namespace Midend.Constants

open Execution Ssa

/-! ## Results of the analysis -/

/-- Whenever the step has a result, it satisfies `post`. -/
def Learns {α : Type} (f : Facts) (m : Analyze α) (post : α → Facts → Prop) : Prop :=
  ∀ a f', m f = .ok (a, f') → post a f'

namespace Learns

variable {α β : Type} {f : Facts}

@[simp] theorem pure_iff {a : α} {post : α → Facts → Prop} : Learns f (pure a) post ↔ post a f :=
  ⟨fun h => h a f rfl, fun h _ _ hrun => by cases hrun; exact h⟩

@[simp] theorem get_iff {post : Facts → Facts → Prop} : Learns f (get : Analyze Facts) post ↔ post f f :=
  ⟨fun h => h f f rfl, fun h _ _ hrun => by cases hrun; exact h⟩

@[simp] theorem set_iff {f₁ : Facts} {post : PUnit → Facts → Prop} :
    Learns f (set f₁ : Analyze PUnit) post ↔ post ⟨⟩ f₁ :=
  ⟨fun h => h _ f₁ rfl, fun h _ _ hrun => by cases hrun; exact h⟩

@[simp] theorem throw_iff {e : Fault} {post : α → Facts → Prop} : Learns f (throw e : Analyze α) post ↔ True :=
  ⟨fun _ => trivial, fun _ _ _ hrun => by cases hrun⟩

@[simp] theorem bind_iff {m : Analyze α} {k : α → Analyze β} {post : β → Facts → Prop} :
    Learns f (m >>= k) post ↔ Learns f m fun a f' => Learns f' (k a) post := by
  unfold Learns
  simp only [bind, StateT.bind]
  cases m f with
  | error e => simp [Except.bind]
  | ok r =>
    obtain ⟨a, f'⟩ := r
    simp [Except.bind]

@[simp] theorem lift_iff {x : Except Fault α} {post : α → Facts → Prop} :
    Learns f (liftM x : Analyze α) post ↔ ∀ a, x = .ok a → post a f := by
  cases x with
  | error e => exact ⟨fun _ _ h => (nomatch h), fun _ _ _ h => (nomatch h)⟩
  | ok a => exact ⟨fun h b hb => h b f (by cases hb; rfl), fun h b f' hrun => by cases hrun; exact h a rfl⟩

theorem ite_iff {c : Prop} [Decidable c] {m n : Analyze α} {post : α → Facts → Prop} :
    Learns f (if c then m else n) post ↔ (c → Learns f m post) ∧ (¬ c → Learns f n post) := by
  by_cases h : c <;> simp [h]

theorem mono {m : Analyze α} {post post' : α → Facts → Prop} (h : Learns f m post)
    (himp : ∀ a f', post a f' → post' a f') : Learns f m post' :=
  fun a f' hrun => himp a f' (h a f' hrun)

theorem forM {xs : List α} {k : α → Analyze PUnit} (inv : List α → Facts → Prop) (hstart : inv xs f)
    (hstep : ∀ a rest f, inv (a :: rest) f → Learns f (k a) fun _ f' => inv rest f') :
    Learns f (xs.forM k) fun _ f' => inv [] f' := by
  induction xs generalizing f with
  | nil => exact pure_iff.mpr hstart
  | cons a rest ih =>
    show Learns f (k a >>= fun _ => rest.forM k) _
    exact bind_iff.mpr ((hstep a rest f hstart).mono fun _ f' hrest => ih hrest)

end Learns

/-! ## What settled means -/

variable {g : FlowGraph} {f f' : Facts} {i d : InstId} {e : Inst} {b c : BlockId} {x : Knowledge}

def Visited (f : Facts) (b : BlockId) : Prop := f.isReachable b = true ∧ b ∉ f.blocks

/-- What is known of an instruction leaves open what its inputs do, and the blocks are reached that it may go to. Phis
are settled in their own way. -/
structure Settled (g : FlowGraph) (f : Facts) (i : InstId) (e : Inst) : Prop where
  value : e.isPhi = false → ∃ r, transfer g f i e = .ok r ∧ ∀ x, r = some x → x.Below (f.value i)
  goto : ∀ t, e = .goto t → f.isReachable t = true
  branch : ∀ cmp onTrue onFalse, e = .branch cmp onTrue onFalse → ∃ x, compareValue g f i cmp = .ok x ∧
    (x.Covers (.bool true) → f.isReachable onTrue = true) ∧ (x.Covers (.bool false) → f.isReachable onFalse = true)

/-- What is known of a phi of `b` leaves open what its inputs do that may arrive. -/
def PhiSettled (g : FlowGraph) (f : Facts) (b : BlockId) (phi : InstId) : Prop :=
  ∀ k p a, (predsOf g b)[k]? = some p → g.Reachable p → g.Edge p b → Visited f p → inputOf g phi k = some a →
    (f.value a).Below (f.value phi) ∨ a ∈ f.definitions

def Pending (f : Facts) (d : Inst) : Prop := ∃ a ∈ d.args, a ∈ f.definitions

/-- The instruction is there and does not end a block. -/
def Recordable (g : FlowGraph) (d : InstId) : Prop := ∃ n, g.nodes[d.index]? = some n ∧ n.inst.isTerminator = false

/-- The state of the analysis between two visits. Exempt are the instructions that are yet to be visited, and all of
`due` was reached. -/
structure Balanced (g : FlowGraph) (due : BlockId → Prop) (exempt : InstId → Prop) (f : Facts) : Prop where
  entered : Visited f FlowGraph.graphEntry
  reached : ∀ b, due b → f.isReachable b = true
  initial : ∀ d ∈ g.initialDefinitions, ∀ n, g.nodes[d.index]? = some n → n.inst.args = [] →
    Settled g f d n.inst ∨ exempt d
  insts : ∀ b, g.Reachable b → b ≠ FlowGraph.graphEntry → Visited f b → ∀ i ∈ g.insts b, ∀ n,
    g.nodes[i.index]? = some n → Settled g f i n.inst ∨ Pending f n.inst ∨ exempt i
  phis : ∀ b, g.Reachable b → Visited f b → ∀ phi, LivePhi g b phi → PhiSettled g f b phi ∨ exempt phi
  recorded : ∀ d, f.value d ≠ .unknown → Recordable g d

/-! ## What the value of an instruction depends on -/

theorem compareValue_congr {cmp : Comparison} (hl : f'.value cmp.left = f.value cmp.left)
    (hr : f'.value cmp.right = f.value cmp.right) : compareValue g f' i cmp = compareValue g f i cmp := by
  unfold compareValue
  rw [hl, hr]

theorem transfer_congr (h : ∀ a ∈ e.args, f'.value a = f.value a) : transfer g f' i e = transfer g f i e := by
  unfold transfer
  split
  case h_3 a => rw [h a (by simp [Inst.args])]
  case h_4 range inputs =>
    cases hitem : itemAt inputs 0 with
    | error => rfl
    | ok a =>
      have ha : a ∈ inputs := List.mem_of_getElem? (orFault_eq_ok.mp hitem)
      simp only [bind, Except.bind, h a ha]
  case h_5 c => rw [compareValue_congr (h c.left (by simp [Inst.args])) (h c.right (by simp [Inst.args]))]
  case h_6 op l r overflow => rw [h l (by simp [Inst.args]), h r (by simp [Inst.args])]
  case h_7 a => rw [h a (by simp [Inst.args])]
  case h_11 =>
    have hmap : e.args.map f'.value = e.args.map f.value := List.map_congr_left h
    simp only [unevaluated, hmap]
  all_goals rfl

theorem isTerminator_of_transfer (h : transfer g f i e = .ok (some x)) : e.isTerminator = false := by
  by_contra hterm
  have hno : e.isDefinition = false := Inst.isDefinition_of_isTerminator (by simpa using hterm)
  unfold transfer at h
  split at h
  case h_5 c =>
    refine hterm ?_
    show c.opcode.isTerminator = false
    unfold Comparison.opcode
    cases c.kind <;> rfl
  case h_11 => simp [unevaluated, hno, pure, Except.pure] at h
  all_goals exact hterm rfl

theorem Settled.congr (h : Settled g f i e) (hargs : ∀ a ∈ e.args, f'.value a = f.value a)
    (hown : f'.value i = f.value i) (hreach : ∀ b, f.isReachable b = true → f'.isReachable b = true) :
    Settled g f' i e where
  value hphi := by
    rw [transfer_congr hargs, hown]
    exact h.value hphi
  goto t ht := hreach t (h.goto t ht)
  branch cmp onTrue onFalse he := by
    subst he
    rw [compareValue_congr (hargs _ (by simp [Inst.args])) (hargs _ (by simp [Inst.args]))]
    obtain ⟨x, hx, htrue, hfalse⟩ := h.branch _ _ _ rfl
    exact ⟨x, hx, fun hc => hreach _ (htrue hc), fun hc => hreach _ (hfalse hc)⟩

theorem settled_of_isPhi (hphi : e.isPhi = true) : Settled g f i e := by
  refine ⟨fun hno => absurd (hphi.symm.trans hno) (by decide), fun t ht => ?_, fun c t e he => ?_⟩
  · simp [ht, Inst.isPhi] at hphi
  · simp [he, Inst.isPhi] at hphi

/-! ## Steps of the analysis -/

/-- What recording a value changes: the value of one definition, and whether its users have to look at it. -/
structure Told (g : FlowGraph) (d : InstId) (x : Knowledge) (f f' : Facts) : Prop where
  reachable : ∀ b, f'.isReachable b = f.isReachable b
  blocks : f'.blocks = f.blocks
  others : ∀ a, a ≠ d → f'.value a = f.value a
  below : x.Below (f'.value d)
  definitions : ∀ a ∈ f.definitions, a ∈ f'.definitions
  seen : (∀ a, f'.value a = f.value a) ∨ ∀ n, g.nodes[d.index]? = some n → n.inputUses ≠ [] → d ∈ f'.definitions

theorem Facts.value_insert {x : Knowledge} {ds : List InstId} (a : InstId) :
    ({ f with values := f.values.insert d.index x, definitions := ds } : Facts).value a =
      if a = d then x else f.value a := by
  unfold Facts.value
  dsimp only
  rw [SideTable.get?_insert]
  by_cases ha : a = d
  · simp [ha]
  · rw [if_neg (fun h => ha (InstId.index_inj.mp h)), if_neg ha]

theorem learns_setValue {x : Knowledge} : Learns f (setValue g d x) fun _ f' => Told g d x f f' := by
  unfold setValue
  simp only [Learns.bind_iff, Learns.get_iff, Learns.ite_iff, Learns.pure_iff, Learns.lift_iff, Learns.set_iff]
  refine ⟨fun hsame => ?_, fun _ us hus => ?_⟩
  · exact ⟨fun _ => rfl, rfl, fun _ _ => rfl, Knowledge.below_of_same hsame, fun _ ha => ha, .inl fun _ => rfl⟩
  · obtain ⟨n, hn, rfl⟩ := FlowGraph.inputUses_eq_ok.mp hus
    refine ⟨fun _ => rfl, rfl, fun a ha => ?_, ?_, fun a ha => ?_, .inr fun n' hn' huses => ?_⟩
    · rw [Facts.value_insert, if_neg ha]
    · rw [Facts.value_insert, if_pos rfl]
      exact fun _ hv => hv
    · dsimp only
      split
      · exact List.mem_cons_of_mem _ ha
      · exact ha
    · obtain rfl := Option.some_inj.mp (hn.symm.trans hn')
      dsimp only
      by_cases hmem : d ∈ f.definitions <;> simp [hmem, huses]

structure Reached (b : BlockId) (f f' : Facts) : Prop where
  values : ∀ a, f'.value a = f.value a
  definitions : f'.definitions = f.definitions
  reachable : ∀ c, f'.isReachable c = true ↔ c = b ∨ f.isReachable c = true
  visited : ∀ c, Visited f' c ↔ Visited f c
  waits : f.isReachable b = false → b ∈ f'.blocks

theorem learns_reach : Learns f (reach b) fun _ f' => Reached b f f' := by
  unfold reach
  simp only [Learns.bind_iff, Learns.get_iff, Learns.ite_iff, Learns.pure_iff, Learns.lift_iff, Learns.set_iff]
  refine ⟨fun hb => ?_, fun hb r hr => ?_⟩
  · refine ⟨fun _ => rfl, rfl, fun c => ⟨.inr, ?_⟩, fun _ => .rfl, fun hno => by simp [hb] at hno⟩
    rintro (rfl | hc)
    · exact hb
    · exact hc
  · have hmem (c : BlockId) : r.contains c.index = true ↔ c = b ∨ f.isReachable c = true := by
      rw [NumberSet.contains_of_insert hr, BlockId.index_inj]
      rfl
    refine ⟨fun _ => rfl, rfl, hmem, fun c => ?_, fun _ => List.mem_cons_self⟩
    unfold Visited
    rw [show (Facts.isReachable { f with reachable := r, blocks := b :: f.blocks } c = true) ↔ _ from hmem c]
    simp only [List.mem_cons, not_or]
    constructor
    · rintro ⟨rfl | hc, hne, hwaits⟩
      · exact absurd rfl hne
      · exact ⟨hc, hwaits⟩
    · rintro ⟨hc, hwaits⟩
      exact ⟨.inr hc, fun heq => hb (heq ▸ hc), hwaits⟩

/-! ## The balance is kept -/

variable {due : BlockId → Prop} {exempt exempt' : InstId → Prop} {n : Node} {phi : InstId}

def Listed (g : FlowGraph) (e : Inst) : Prop := ∀ a ∈ e.args, ∃ m, g.nodes[a.index]? = some m ∧ m.inputUses ≠ []

theorem listed_of_holds (h : ∀ k a, n.inst.args[k]? = some a → g.InputHolds i k a) : Listed g n.inst := by
  intro a ha
  obtain ⟨k, hk⟩ := List.mem_iff_getElem?.mp ha
  obtain ⟨m, hm, hmem⟩ := (h k a hk).listed
  exact ⟨m, hm, List.ne_nil_of_mem hmem⟩

theorem mem_args_of_inputOf {k : Nat} {a : InstId} (hn : g.nodes[i.index]? = some n) (h : inputOf g i k = some a) :
    a ∈ n.inst.args := by
  rw [inputOf, hn] at h
  exact List.mem_of_getElem? h

theorem Balanced.mono (h : Balanced g due exempt f) (himp : ∀ i, exempt i → exempt' i) : Balanced g due exempt' f where
  entered := h.entered
  reached := h.reached
  initial d hd n hn hargs := (h.initial d hd n hn hargs).imp_right (himp d)
  insts b hb hne hv i hi n hn := (h.insts b hb hne hv i hi n hn).imp_right (·.imp_right (himp i))
  phis b hb hv phi hphi := (h.phis b hb hv phi hphi).imp_right (himp phi)
  recorded := h.recorded

theorem Balanced.reach (h : Balanced g due exempt f) (hr : Reached b f f') : Balanced g due exempt f' where
  entered := (hr.visited _).mpr h.entered
  reached c hc := (hr.reachable c).mpr (.inr (h.reached c hc))
  initial d hd n hn hargs := (h.initial d hd n hn hargs).imp_left fun hs =>
    hs.congr (fun a _ => hr.values a) (hr.values d) fun c hc => (hr.reachable c).mpr (.inr hc)
  insts c hc hne hv i hi n hn := by
    refine (h.insts c hc hne ((hr.visited c).mp hv) i hi n hn).imp (fun hs => ?_) (Or.imp_left ?_)
    · exact hs.congr (fun a _ => hr.values a) (hr.values i) fun c hc => (hr.reachable c).mpr (.inr hc)
    · rintro ⟨a, ha, hmem⟩
      exact ⟨a, ha, hr.definitions ▸ hmem⟩
  phis c hc hv phi hphi := by
    refine (h.phis c hc ((hr.visited c).mp hv) phi hphi).imp_left fun hs k p a hp hpr hedge hvp ha => ?_
    rw [hr.values, hr.values, hr.definitions]
    exact hs k p a hp hpr hedge ((hr.visited p).mp hvp) ha
  recorded d hd := h.recorded d (by rwa [hr.values] at hd)

theorem Told.visited (ht : Told g d x f f') (b : BlockId) : Visited f' b ↔ Visited f b := by
  unfold Visited
  rw [ht.reachable, ht.blocks]

theorem Told.pending (ht : Told g d x f f') (h : Pending f e) : Pending f' e := by
  obtain ⟨a, ha, hmem⟩ := h
  exact ⟨a, ha, ht.definitions a hmem⟩

theorem Told.settled (ht : Told g d x f f') (hlisted : Listed g e) (hne : i ≠ d) (h : Settled g f i e) :
    Settled g f' i e ∨ Pending f' e := by
  have hreach : ∀ b, f.isReachable b = true → f'.isReachable b = true := fun b hb => by rw [ht.reachable, hb]
  by_cases hd : d ∈ e.args
  · obtain hsame | hwaits := ht.seen
    · exact .inl (h.congr (fun a _ => hsame a) (hsame i) hreach)
    · obtain ⟨m, hm, huses⟩ := hlisted d hd
      exact .inr ⟨d, hd, hwaits m hm huses⟩
  · exact .inl (h.congr (fun a ha => ht.others a (ne_of_mem_of_not_mem ha hd)) (ht.others i hne) hreach)

theorem Balanced.told (hform : SsaForm g) (hd : Recordable g d) (h : Balanced g due (fun i => exempt i ∨ i = d) f)
    (ht : Told g d x f f') : Balanced g due (fun i => exempt i ∨ i = d) f' where
  entered := (ht.visited _).mpr h.entered
  reached c hc := by rw [ht.reachable, h.reached c hc]
  initial i hi n hn hargs := by
    by_cases hid : i = d
    · exact .inr (.inr hid)
    · refine (h.initial i hi n hn hargs).imp_left fun hs => hs.congr (by simp [hargs]) (ht.others i hid) fun b hb => ?_
      rw [ht.reachable, hb]
  insts b hb hne hv i hi n hn := by
    by_cases hid : i = d
    · exact .inr (.inr (.inr hid))
    · obtain ⟨last, -, hholds⟩ := hform.inst_holds hb hne hi hn
      obtain hs | hp | he := h.insts b hb hne ((ht.visited b).mp hv) i hi n hn
      · exact (ht.settled (listed_of_holds hholds.operands.inputs) hid hs).imp_right .inl
      · exact .inr (.inl (ht.pending hp))
      · exact .inr (.inr he)
  phis b hb hv phi hphi := by
    by_cases hid : phi = d
    · exact .inr (.inr hid)
    · refine (h.phis b hb ((ht.visited b).mp hv) phi hphi).imp_left fun hs k p a hp hpr hedge hvp ha => ?_
      obtain ⟨n, hn, -, -, hholds⟩ := hform.phi_holds hb hphi
      rw [ht.others phi hid]
      obtain hbelow | hwaits := hs k p a hp hpr hedge ((ht.visited p).mp hvp) ha
      · by_cases had : a = d
        · subst had
          obtain hsame | hwaits := ht.seen
          · exact .inl (by rwa [hsame])
          · obtain ⟨m, hm, huses⟩ := listed_of_holds hholds.inputs a (mem_args_of_inputOf hn ha)
            exact .inr (hwaits m hm huses)
        · exact .inl (by rwa [ht.others a had])
      · exact .inr (ht.definitions a hwaits)
  recorded i hi := by
    by_cases hid : i = d
    · exact hid ▸ hd
    · exact h.recorded i (by rwa [ht.others i hid] at hi)

theorem Balanced.pay (hform : SsaForm g) (h : Balanced g due (fun i => exempt i ∨ i = d) f)
    (hinst : ∀ n, g.nodes[d.index]? = some n → Listed g n.inst → Settled g f d n.inst ∨ Pending f n.inst)
    (hphi : ∀ b, g.Reachable b → Visited f b → LivePhi g b d → PhiSettled g f b d) : Balanced g due exempt f where
  entered := h.entered
  reached := h.reached
  initial i hi n hn hargs := by
    obtain hs | he | rfl := h.initial i hi n hn hargs
    · exact .inl hs
    · exact .inr he
    · obtain hs | ⟨a, ha, -⟩ := hinst n hn (by simp [Listed, hargs])
      · exact .inl hs
      · simp [hargs] at ha
  insts b hb hne hv i hi n hn := by
    obtain hs | hp | he | rfl := h.insts b hb hne hv i hi n hn
    · exact .inl hs
    · exact .inr (.inl hp)
    · exact .inr (.inr he)
    · obtain ⟨last, -, hholds⟩ := hform.inst_holds hb hne hi hn
      exact (hinst n hn (listed_of_holds hholds.operands.inputs)).imp_right .inl
  phis b hb hv phi hlive := by
    obtain hs | he | rfl := h.phis b hb hv phi hlive
    · exact .inl hs
    · exact .inr he
    · exact .inl (hphi b hb hv hlive)
  recorded := h.recorded

theorem Balanced.drop_phis (hform : SsaForm g) (h : Balanced g due (fun i => exempt i ∨ LivePhi g b i) f)
    (hb : ¬ Visited f b) : Balanced g due exempt f := by
  have hphi {i : InstId} {n : Node} (hlive : LivePhi g b i) (hn : g.nodes[i.index]? = some n) :
    Settled g f i n.inst := by
    obtain ⟨m, hm, hphi, -⟩ := hform.phis b i hlive.1
    obtain rfl := Option.some_inj.mp (hn.symm.trans hm)
    exact settled_of_isPhi hphi
  refine ⟨h.entered, h.reached, fun d hd n hn hargs => ?_, fun c hc hne hv i hi n hn => ?_,
    fun c hc hv phi hlive => ?_, h.recorded⟩
  · obtain hs | he | hlive := h.initial d hd n hn hargs
    · exact .inl hs
    · exact .inr he
    · exact .inl (hphi hlive hn)
  · obtain hs | hp | he | hlive := h.insts c hc hne hv i hi n hn
    · exact .inl hs
    · exact .inr (.inl hp)
    · exact .inr (.inr he)
    · exact .inl (hphi hlive hn)
  · refine (h.phis c hc hv phi hlive).imp_right fun he => he.resolve_right fun hlive' => ?_
    obtain ⟨n, hn, -, hblock⟩ := hform.phis c phi hlive.1
    obtain ⟨m, hm, -, hblock'⟩ := hform.phis b phi hlive'.1
    obtain rfl := Option.some_inj.mp (hn.symm.trans hm)
    obtain rfl := Option.some_inj.mp (hblock.symm.trans hblock')
    exact hb hv

/-! ## Visits -/

theorem below_phiValue {inputs : List (BlockId × InstId)} {p : BlockId} {a : InstId} (hmem : (p, a) ∈ inputs)
    (hp : f.isReachable p = true) : (f.value a).Below (phiValue f inputs) := by
  have hfold (rest : List (BlockId × InstId)) (x : Knowledge) :
      x.Below (rest.foldl (fun v q => v.join (f.value q.2)) x) ∧
        ∀ q ∈ rest, (f.value q.2).Below (rest.foldl (fun v q => v.join (f.value q.2)) x) := by
    induction rest generalizing x with
    | nil => exact ⟨fun _ hv => hv, by simp⟩
    | cons q rest ih =>
      obtain ⟨hx, hrest⟩ := ih (x.join (f.value q.2))
      refine ⟨fun v hv => hx v (Knowledge.below_join_left v hv), List.forall_mem_cons.mpr ⟨?_, hrest⟩⟩
      exact fun v hv => hx v (Knowledge.below_join_right v hv)
  exact (hfold _ .unknown).2 (p, a) (List.mem_filter.mpr ⟨hmem, by simpa using hp⟩)

theorem learns_visitPhi (hform : SsaForm g) (hn : g.nodes[phi.index]? = some n) (hphi : n.inst.isPhi = true)
    (h : Balanced g due (fun i => exempt i ∨ i = phi) f) :
    Learns f (visitPhi g phi) fun _ f' => Balanced g due exempt f' := by
  have hinst (f : Facts) : ∀ n, g.nodes[phi.index]? = some n → Listed g n.inst →
      Settled g f phi n.inst ∨ Pending f n.inst := by
    intro m hm _
    obtain rfl := Option.some_inj.mp (hn.symm.trans hm)
    exact .inl (settled_of_isPhi hphi)
  unfold visitPhi
  rw [Learns.bind_iff, Learns.lift_iff]
  intro home hhome
  obtain ⟨m, hm, rfl⟩ := FlowGraph.instBlock_eq_ok.mp hhome
  obtain rfl := Option.some_inj.mp (hn.symm.trans hm)
  -- a phi without a block is no phi of any block
  have hblock : ∀ b, LivePhi g b phi → n.block = some b := by
    intro b hlive
    obtain ⟨m, hm, -, hb⟩ := hform.phis b phi hlive.1
    obtain rfl := Option.some_inj.mp (hn.symm.trans hm)
    exact hb
  cases hb : n.block with
  | none =>
    refine Learns.pure_iff.mpr (h.pay hform (hinst f) fun b _ _ hlive => ?_)
    simp [hb] at hblock
    exact absurd hlive (hblock b)
  | some b =>
    simp only [Learns.bind_iff, Learns.get_iff, Learns.lift_iff]
    intro ps hps as has
    obtain ⟨k, hk, rfl⟩ := FlowGraph.preds_eq_ok.mp hps
    obtain ⟨m, hm, rfl⟩ := FlowGraph.args_eq_ok.mp has
    obtain rfl := Option.some_inj.mp (hn.symm.trans hm)
    have hrecordable : Recordable g phi := ⟨n, hn, by rw [Inst.isTerminator, Inst.opcode_of_isPhi hphi]; rfl⟩
    refine learns_setValue.mono fun _ f' ht => (h.told hform hrecordable ht).pay hform (hinst f') ?_
    intro c hc hv hlive k' p a hp hpr hedge hvp ha
    obtain rfl : b = c := Option.some_inj.mp (hb.symm.trans (hblock c hlive))
    have hpair : (p, a) ∈ k.preds.zip n.inst.args := by
      rw [predsOf, hk] at hp
      rw [inputOf, hn] at ha
      exact List.mem_of_getElem? (List.getElem?_zip_eq_some.mpr ⟨hp, ha⟩)
    left
    by_cases ha' : a = phi
    · rw [ha']
      exact fun v hv => hv
    · rw [ht.others a ha']
      exact fun v hv => ht.below v (below_phiValue hpair (by rw [← ht.reachable]; exact hvp.1) v hv)

theorem learns_visitPhis (hform : SsaForm g) (h : Balanced g due (fun i => exempt i ∨ LivePhi g b i) f) :
    Learns f (visitPhis g b) fun _ f' => Balanced g due exempt f' := by
  unfold visitPhis
  rw [Learns.bind_iff, Learns.lift_iff]
  intro ps hps
  refine (Learns.forM (fun rest f => (∀ phi ∈ rest, LivePhi g b phi) ∧ Balanced g due (fun i => exempt i ∨ i ∈ rest) f)
    ⟨fun phi hphi => (mem_livePhis_iff hps).mp hphi, ?_⟩ fun phi rest f hf => ?_).mono fun _ f' hf' => ?_
  · exact h.mono fun i hi => hi.imp_right (mem_livePhis_iff hps).mpr
  · obtain ⟨hlive, hrest⟩ := List.forall_mem_cons.mp hf.1
    obtain ⟨n, hn, hphi, -⟩ := hform.phis b phi hlive.1
    have hbal : Balanced g due (fun i => (exempt i ∨ i ∈ rest) ∨ i = phi) f :=
      hf.2.mono fun i hi => by simpa [or_assoc, or_comm, or_left_comm] using hi
    exact (learns_visitPhi hform hn hphi hbal).mono fun _ f' hf' => ⟨hrest, hf'⟩
  · exact hf'.2.mono fun i hi => by simpa using hi

/-- What has to wait for a visit of `i`: itself, and the phis behind it. -/
def Owed (g : FlowGraph) (i j : InstId) : Prop :=
  j = i ∨ ∃ n t, g.nodes[i.index]? = some n ∧ n.inst = .goto t ∧ LivePhi g t j

theorem Reached.mono (hr : Reached b f f') (hc : f.isReachable c = true) : f'.isReachable c = true :=
  (hr.reachable c).mpr (.inr hc)

theorem learns_visitGoto (hform : SsaForm g) {t : BlockId} (hn : g.nodes[i.index]? = some n) (hgoto : n.inst = .goto t)
    (h : Balanced g due (fun j => exempt j ∨ Owed g i j) f) :
    Learns f (visitGoto g t) fun _ f' => Balanced g due exempt f' := by
  have howed : ∀ j, exempt j ∨ Owed g i j → (exempt j ∨ LivePhi g t j) ∨ j = i := by
    rintro j (hj | rfl | ⟨m, t', hm, ht', hlive⟩)
    · exact .inl (.inl hj)
    · exact .inr rfl
    · obtain rfl := Option.some_inj.mp (hn.symm.trans hm)
      obtain rfl := Inst.goto.inj (hgoto.symm.trans ht')
      exact .inl (.inr hlive)
  have hnoPhi (b : BlockId) (hlive : LivePhi g b i) : False := by
    obtain ⟨m, hm, hphi, -⟩ := hform.phis b i hlive.1
    obtain rfl := Option.some_inj.mp (hn.symm.trans hm)
    simp [hgoto, Inst.isPhi] at hphi
  have hpay {f : Facts} (ht : f.isReachable t = true)
    (h : Balanced g due (fun j => (exempt j ∨ LivePhi g t j) ∨ j = i) f) :
      Balanced g due (fun j => exempt j ∨ LivePhi g t j) f := by
    refine h.pay hform (fun m hm _ => .inl ?_) fun b _ _ hlive => (hnoPhi b hlive).elim
    obtain rfl := Option.some_inj.mp (hn.symm.trans hm)
    refine ⟨fun _ => ⟨none, by rw [hgoto]; rfl, by simp⟩, fun t' ht' => ?_, fun c t e he => ?_⟩
    · obtain rfl := Inst.goto.inj (hgoto.symm.trans ht')
      exact ht
    · rw [hgoto] at he
      cases he
  unfold visitGoto
  simp only [Learns.bind_iff, Learns.get_iff, Learns.ite_iff]
  refine ⟨fun ht => learns_visitPhis hform (hpay ht (h.mono howed)), fun ht => ?_⟩
  -- a block that was not reached before is visited later, and its phis with it
  refine learns_reach.mono fun _ f' hr => ?_
  have hbal := hpay ((hr.reachable t).mpr (.inl rfl)) ((h.mono howed).reach hr)
  exact hbal.drop_phis hform fun hv => hv.2 (hr.waits (by simpa using ht))

theorem learns_visitBranch (hform : SsaForm g) {cmp : Comparison} {onTrue onFalse : BlockId}
    (hn : g.nodes[i.index]? = some n) (hbranch : n.inst = .branch cmp onTrue onFalse)
    (h : Balanced g due (fun j => exempt j ∨ j = i) f) :
    Learns f (visitBranch g i cmp onTrue onFalse) fun _ f' => Balanced g due exempt f' := by
  unfold visitBranch
  simp only [Learns.bind_iff, Learns.get_iff, Learns.lift_iff]
  intro x hx
  have hpay {f' : Facts} (hvalues : ∀ a, f'.value a = f.value a) (h : Balanced g due (fun j => exempt j ∨ j = i) f')
      (htrue : x.Covers (.bool true) → f'.isReachable onTrue = true)
      (hfalse : x.Covers (.bool false) → f'.isReachable onFalse = true) : Balanced g due exempt f' := by
    refine h.pay hform (fun m hm _ => .inl ?_) fun b _ _ hlive => ?_
    · obtain rfl := Option.some_inj.mp (hn.symm.trans hm)
      refine ⟨fun _ => ⟨none, by rw [hbranch]; rfl, by simp⟩, fun t ht => ?_, fun cmp' onTrue' onFalse' he => ?_⟩
      · rw [hbranch] at ht
        cases ht
      · obtain ⟨rfl, rfl, rfl⟩ := Inst.branch.inj (hbranch.symm.trans he)
        exact ⟨x, by rw [compareValue_congr (hvalues _) (hvalues _), hx], htrue, hfalse⟩
    · obtain ⟨m, hm, hphi, -⟩ := hform.phis b i hlive.1
      obtain rfl := Option.some_inj.mp (hn.symm.trans hm)
      simp [hbranch, Inst.isPhi] at hphi
  split
  case h_1 =>
    refine learns_reach.mono fun _ f' hr =>
      hpay hr.values (h.reach hr) (fun _ => (hr.reachable onTrue).mpr (.inl rfl)) fun hc => ?_
    obtain ⟨c, hc, hsame⟩ := Knowledge.covers_known.mp hc
    cases hc
    cases hsame
  case h_2 c hc =>
    refine learns_reach.mono fun _ f' hr =>
      hpay hr.values (h.reach hr) (fun hcovers => ?_) fun _ => (hr.reachable onFalse).mpr (.inl rfl)
    obtain ⟨c', hc', hsame⟩ := Knowledge.covers_known.mp hcovers
    cases hc'
    exact (hc (Constant.eq_of_same_bool (Constant.same_symm hsame))).elim
  all_goals
    refine Learns.bind_iff.mpr (learns_reach.mono fun _ f₁ hr₁ => learns_reach.mono fun _ f₂ hr₂ => ?_)
    refine hpay (fun a => (hr₂.values a).trans (hr₁.values a)) ((h.reach hr₁).reach hr₂) (fun _ => ?_) fun _ => ?_
    · exact hr₂.mono ((hr₁.reachable onTrue).mpr (.inl rfl))
    · exact (hr₂.reachable onFalse).mpr (.inl rfl)

theorem learns_visitInst (hform : SsaForm g) (h : Balanced g due (fun j => exempt j ∨ Owed g i j) f) :
    Learns f (visitInst g i) fun _ f' => Balanced g due exempt f' := by
  unfold visitInst
  rw [Learns.bind_iff, Learns.lift_iff]
  intro e he
  obtain ⟨n, hn, rfl⟩ := FlowGraph.inst_eq_ok.mp he
  -- only a goto lets others wait for it
  have howed (hno : ∀ t, n.inst ≠ .goto t) : Balanced g due (fun j => exempt j ∨ j = i) f := by
    refine h.mono fun j hj => hj.imp_right ?_
    rintro (rfl | ⟨m, t, hm, ht, -⟩)
    · rfl
    · obtain rfl := Option.some_inj.mp (hn.symm.trans hm)
      exact absurd ht (hno t)
  split
  case h_1 hphi =>
    refine learns_visitPhi hform hn (by rw [hphi]; rfl) (howed fun t ht => ?_)
    rw [hphi] at ht
    cases ht
  case h_2 t hgoto => exact learns_visitGoto hform hn hgoto h
  case h_3 cmp onTrue onFalse hbranch =>
    refine learns_visitBranch hform hn hbranch (howed fun t ht => ?_)
    rw [hbranch] at ht
    cases ht
  case h_4 hphi hgoto hbranch =>
    have hbal := howed hgoto
    have hlivePhi (b : BlockId) (hlive : LivePhi g b i) : False := by
      obtain ⟨m, hm, hisPhi, -⟩ := hform.phis b i hlive.1
      obtain rfl := Option.some_inj.mp (hn.symm.trans hm)
      obtain ⟨slot, as, alive, r, hphi'⟩ : ∃ slot as alive r, n.inst = .phi slot as alive r := by
        revert hisPhi
        cases n.inst <;> simp [Inst.isPhi]
      exact hphi _ _ _ _ hphi'
    have hsettle {f' : Facts} (r : Option Knowledge) (hr : transfer g f' i n.inst = .ok r)
        (hbelow : ∀ x, r = some x → x.Below (f'.value i)) : Settled g f' i n.inst :=
      ⟨fun _ => ⟨r, hr, hbelow⟩, fun t ht => absurd ht (hgoto t), fun cmp t e he => absurd he (hbranch cmp t e)⟩
    simp only [Learns.bind_iff, Learns.get_iff, Learns.lift_iff]
    intro r hr
    cases r with
    | none =>
      refine Learns.pure_iff.mpr (hbal.pay hform (fun m hm _ => .inl ?_) fun b _ _ hlive => (hlivePhi b hlive).elim)
      obtain rfl := Option.some_inj.mp (hn.symm.trans hm)
      exact hsettle none hr (by simp)
    | some y =>
      have hrecordable : Recordable g i := ⟨n, hn, isTerminator_of_transfer hr⟩
      refine learns_setValue.mono fun _ f' ht => (hbal.told hform hrecordable ht).pay hform (fun m hm hlisted => ?_)
        fun b _ _ hlive => (hlivePhi b hlive).elim
      obtain rfl := Option.some_inj.mp (hn.symm.trans hm)
      have hsame (hargs : ∀ a ∈ n.inst.args, f'.value a = f.value a) : Settled g f' i n.inst := by
        refine hsettle (some y) (by rw [transfer_congr hargs, hr]) ?_
        rintro x ⟨⟩
        exact ht.below
      by_cases hself : i ∈ n.inst.args
      · obtain hall | hwaits := ht.seen
        · exact .inl (hsame fun a _ => hall a)
        · obtain ⟨k, hk, huses⟩ := hlisted i hself
          exact .inr ⟨i, hself, hwaits k hk huses⟩
      · exact .inl (hsame fun a ha => ht.others a (ne_of_mem_of_not_mem ha hself))

theorem Balanced.pop_block (hform : SsaForm g) (h : Balanced g due (fun _ => False) f) {rest : List BlockId}
    (hblocks : f.blocks = b :: rest) :
    Balanced g due (fun j => (∃ i ∈ g.insts b, Owed g i j) ∨ LivePhi g b j) { f with blocks := rest } := by
  have hvisited (c : BlockId) (hne : c ≠ b) (hv : Visited { f with blocks := rest } c) : Visited f c := by
    refine ⟨hv.1, ?_⟩
    rw [hblocks]
    simpa [hne] using hv.2
  refine ⟨⟨h.entered.1, fun hmem => h.entered.2 ?_⟩, h.reached, fun d hd n hn hargs => ?_,
    fun c hc hne hv i hi n hn => ?_, fun c hc hv phi hlive => ?_, h.recorded⟩
  · rw [hblocks]
    exact List.mem_cons_of_mem _ hmem
  · exact .inl (((h.initial d hd n hn hargs).resolve_right id).congr (fun _ _ => rfl) rfl fun _ hb => hb)
  · by_cases hcb : c = b
    · subst hcb
      exact .inr (.inr (.inl ⟨i, hi, .inl rfl⟩))
    · obtain hs | hp | he := h.insts c hc hne (hvisited c hcb hv) i hi n hn
      · exact .inl (hs.congr (fun _ _ => rfl) rfl fun _ hb => hb)
      · exact .inr (.inl hp)
      · exact he.elim
  · by_cases hcb : c = b
    · subst hcb
      exact .inr (.inr hlive)
    · by_cases hedge : g.Reachable b ∧ g.Edge b c
      · have hne : b ≠ FlowGraph.graphEntry := fun hb => h.entered.2 (by rw [hblocks, hb]; exact List.mem_cons_self)
        obtain ⟨i, n, hi, hn, hgoto⟩ := hform.goto_of_edge hedge.1 hne hedge.2 hlive.1
        exact .inr (.inl ⟨i, hi, .inr ⟨n, c, hn, hgoto, hlive⟩⟩)
      · left
        intro k p a hp hpr hedge' hvp ha
        have hpb : p ≠ b := by
          rintro rfl
          exact hedge ⟨hpr, hedge'⟩
        exact (h.phis c hc (hvisited c hcb hv) phi hlive).resolve_right id k p a hp hpr hedge' (hvisited p hpb hvp) ha

theorem learns_visitBlock (hform : SsaForm g) (hne : b ≠ FlowGraph.graphEntry)
    (h : Balanced g due (fun j => (∃ i ∈ g.insts b, Owed g i j) ∨ LivePhi g b j) f) :
    Learns f (visitBlock g b) fun _ f' => Balanced g due (fun _ => False) f' := by
  unfold visitBlock
  rw [if_neg hne, Learns.bind_iff]
  refine (learns_visitPhis hform h).mono fun _ f₁ h₁ => ?_
  refine (Learns.forM (fun rest => Balanced g due fun j => ∃ i ∈ rest, Owed g i j) h₁ fun i rest f hf => ?_).mono
    fun _ f' hf' => hf'.mono fun j hj => by simp at hj
  exact learns_visitInst hform (hf.mono fun j hj => by simpa [or_comm] using hj)

/-- The instruction uses `d` and has a block of its own. -/
def UserOf (g : FlowGraph) (us : List Use) (j : InstId) : Prop := (∃ u ∈ us, u.user = j) ∧ j ∉ g.initialDefinitions

theorem Balanced.pop_definition (hform : SsaForm g) (h : Balanced g due (fun _ => False) f) {rest : List InstId}
    (hdefs : f.definitions = d :: rest) (hn : g.nodes[d.index]? = some n) :
    Balanced g due (UserOf g n.inputUses) { f with definitions := rest } := by
  have huser {i k : InstId} {m : Node} {j : Nat} (hm : g.nodes[i.index]? = some m) (hj : m.inst.args[j]? = some d)
      (hlisted : ∃ n, g.nodes[d.index]? = some n ∧ ⟨i, j⟩ ∈ n.inputUses) : UserOf g n.inputUses i := by
    obtain ⟨n', hn', hmem⟩ := hlisted
    obtain rfl := Option.some_inj.mp (hn.symm.trans hn')
    refine ⟨⟨_, hmem, rfl⟩, fun hinitial => ?_⟩
    obtain ⟨m', hm', hgiven⟩ := hform.initial i hinitial
    obtain rfl := Option.some_inj.mp (hm.symm.trans hm')
    obtain ⟨c, hc⟩ | ⟨c, hc⟩ := Inst.eq_of_isGiven hgiven <;> simp [hc, Inst.args] at hj
  refine ⟨h.entered, h.reached, fun i hi m hm hargs => ?_, fun b hb hne hv i hi m hm => ?_,
    fun b hb hv phi hlive => ?_, h.recorded⟩
  · exact .inl (((h.initial i hi m hm hargs).resolve_right id).congr (fun _ _ => rfl) rfl fun _ hb => hb)
  · obtain hs | ⟨a, ha, hmem⟩ | he := h.insts b hb hne hv i hi m hm
    · exact .inl (hs.congr (fun _ _ => rfl) rfl fun _ hb => hb)
    · rw [hdefs] at hmem
      obtain rfl | hmem := List.mem_cons.mp hmem
      · obtain ⟨last, -, hholds⟩ := hform.inst_holds hb hne hi hm
        obtain ⟨j, hj⟩ := List.mem_iff_getElem?.mp ha
        exact .inr (.inr (huser (k := a) hm hj (hholds.operands.inputs j a hj).listed))
      · exact .inr (.inl ⟨a, ha, hmem⟩)
    · exact he.elim
  · obtain ⟨m, hm, -, -, hholds⟩ := hform.phi_holds hb hlive
    by_cases huses : UserOf g n.inputUses phi
    · exact .inr huses
    · left
      intro k p a hp hpr hedge hvp ha
      refine ((h.phis b hb hv phi hlive).resolve_right id k p a hp hpr hedge hvp ha).imp_right fun hmem => ?_
      rw [hdefs] at hmem
      refine (List.mem_cons.mp hmem).resolve_left ?_
      rintro rfl
      rw [inputOf, hm] at ha
      exact huses (huser (k := a) hm ha (hholds.inputs k a ha).listed)

theorem Balanced.skip (hform : SsaForm g) (h : Balanced g due (fun j => exempt j ∨ j = i ∧ j ∉ g.initialDefinitions) f)
    (hn : g.nodes[i.index]? = some n) (hhome : ∀ b, n.block = some b → ¬ f.isReachable b = true) :
    Balanced g due exempt f := by
  refine ⟨h.entered, h.reached, fun d hd m hm hargs => ?_, fun b hb hne hv j hj m hm => ?_,
    fun b hb hv phi hlive => ?_, h.recorded⟩
  · exact (h.initial d hd m hm hargs).imp_right fun he => he.resolve_right fun hno => hno.2 hd
  · refine (h.insts b hb hne hv j hj m hm).imp_right (·.imp_right fun he => he.resolve_right ?_)
    rintro ⟨rfl, -⟩
    obtain rfl := Option.some_inj.mp (hn.symm.trans hm)
    obtain ⟨last, -, hholds⟩ := hform.inst_holds hb hne hj hm
    exact hhome b hholds.placed hv.1
  · refine (h.phis b hb hv phi hlive).imp_right fun he => he.resolve_right ?_
    rintro ⟨rfl, -⟩
    obtain ⟨m, hm, -, hblock⟩ := hform.phis b phi hlive.1
    obtain rfl := Option.some_inj.mp (hn.symm.trans hm)
    exact hhome b hblock hv.1

theorem learns_visitUsers (hform : SsaForm g)
    (h : ∀ n, g.nodes[d.index]? = some n → Balanced g due (UserOf g n.inputUses) f) :
    Learns f (visitUsers g d) fun _ f' => Balanced g due (fun _ => False) f' := by
  unfold visitUsers
  rw [Learns.bind_iff, Learns.lift_iff]
  intro us hus
  obtain ⟨n, hn, rfl⟩ := FlowGraph.inputUses_eq_ok.mp hus
  refine (Learns.forM (fun rest => Balanced g due (UserOf g rest)) (h n hn) fun u rest f hf => ?_).mono
    fun _ f' hf' => hf'.mono fun j hj => by simp [UserOf] at hj
  have hbal : Balanced g due (fun j => UserOf g rest j ∨ j = u.user ∧ j ∉ g.initialDefinitions) f := by
    refine hf.mono fun j hj => ?_
    obtain ⟨⟨v, hv, rfl⟩, hno⟩ := hj
    obtain rfl | hv := List.mem_cons.mp hv
    · exact .inr ⟨rfl, hno⟩
    · exact .inl ⟨⟨v, hv, rfl⟩, hno⟩
  rw [Learns.bind_iff, Learns.lift_iff]
  intro home hhome
  obtain ⟨m, hm, rfl⟩ := FlowGraph.instBlock_eq_ok.mp hhome
  cases hblock : m.block with
  | none => exact Learns.pure_iff.mpr (hbal.skip hform hm (by simp [hblock]))
  | some b =>
    simp only [Learns.bind_iff, Learns.get_iff, Learns.ite_iff]
    refine ⟨fun _ => learns_visitInst hform (hbal.mono fun j hj => hj.imp_right fun hj => .inl hj.1), fun hb => ?_⟩
    refine Learns.pure_iff.mpr (hbal.skip hform hm fun c hc => ?_)
    obtain rfl := Option.some_inj.mp (hblock.symm.trans hc)
    exact hb

theorem learns_drain (hform : SsaForm g) (steps : Nat) (h : Balanced g due (fun _ => False) f) :
    Learns f (drain g steps) fun _ f' => Balanced g due (fun _ => False) f' ∧ f'.blocks = [] ∧ f'.definitions = [] := by
  induction steps generalizing f with
  | zero => exact Learns.throw_iff.mpr trivial
  | succ steps ih =>
    unfold drain
    rw [Learns.bind_iff, Learns.get_iff]
    split
    case h_1 b rest hblocks =>
      simp only [Learns.bind_iff, Learns.set_iff]
      have hne : b ≠ FlowGraph.graphEntry := fun hb => h.entered.2 (by rw [hblocks, hb]; exact List.mem_cons_self)
      exact (learns_visitBlock hform hne (h.pop_block hform hblocks)).mono fun _ f' hf' => ih hf'
    case h_2 d rest hblocks hdefs =>
      simp only [Learns.bind_iff, Learns.set_iff]
      exact (learns_visitUsers hform fun n hn => h.pop_definition hform hdefs hn).mono fun _ f' hf' => ih hf'
    case h_3 hblocks hdefs => exact Learns.pure_iff.mpr ⟨h, hblocks, hdefs⟩

structure Settles (g : FlowGraph) (f : Facts) : Prop where
  entry : f.isReachable FlowGraph.graphEntry = true
  start : ∀ b, g.Edge FlowGraph.graphEntry b → f.isReachable b = true
  initial : ∀ d ∈ g.initialDefinitions, ∀ n, g.nodes[d.index]? = some n → Settled g f d n.inst
  insts : ∀ b, g.Reachable b → b ≠ FlowGraph.graphEntry → f.isReachable b = true → ∀ i ∈ g.insts b, ∀ n,
    g.nodes[i.index]? = some n → Settled g f i n.inst
  phis : ∀ b, g.Reachable b → f.isReachable b = true → ∀ phi, LivePhi g b phi → ∀ k p a, (predsOf g b)[k]? = some p →
    g.Reachable p → g.Edge p b → f.isReachable p = true → inputOf g phi k = some a → (f.value a).Below (f.value phi)
  recorded : ∀ d, f.value d ≠ .unknown → Recordable g d

theorem Balanced.settles (hform : SsaForm g) (h : Balanced g (g.Edge FlowGraph.graphEntry) (fun _ => False) f)
    (hblocks : f.blocks = []) (hdefs : f.definitions = []) : Settles g f where
  entry := h.entered.1
  start := h.reached
  initial d hd n hn := by
    refine (h.initial d hd n hn ?_).resolve_right id
    obtain ⟨m, hm, hgiven⟩ := hform.initial d hd
    obtain rfl := Option.some_inj.mp (hn.symm.trans hm)
    obtain ⟨c, hc⟩ | ⟨c, hc⟩ := Inst.eq_of_isGiven hgiven <;> simp [hc, Inst.args]
  insts b hb hne hreach i hi n hn := by
    obtain hs | ⟨a, -, hmem⟩ | he := h.insts b hb hne ⟨hreach, by simp [hblocks]⟩ i hi n hn
    · exact hs
    · simp [hdefs] at hmem
    · exact he.elim
  phis b hb hreach phi hlive k p a hp hpr hedge hvp ha := by
    have hs := (h.phis b hb ⟨hreach, by simp [hblocks]⟩ phi hlive).resolve_right id
    exact (hs k p a hp hpr hedge ⟨hvp, by simp [hblocks]⟩ ha).resolve_right (by simp [hdefs])
  recorded := h.recorded

theorem learns_visitEntry (hform : SsaForm g) (hreach : ∀ b, f.isReachable b = true ↔ b = FlowGraph.graphEntry)
    (hblocks : f.blocks = []) (hvalues : ∀ d, f.value d = .unknown) :
    Learns f (visitBlock g FlowGraph.graphEntry) fun _ f' =>
      Balanced g (g.Edge FlowGraph.graphEntry) (fun _ => False) f' := by
  have hstart : Balanced g (fun _ => False) (· ∈ g.initialDefinitions) f := by
    refine ⟨⟨(hreach _).mpr rfl, by simp [hblocks]⟩, fun _ h => h.elim, fun d hd _ _ _ => .inr hd,
      fun b _ hne hv => absurd ((hreach b).mp hv.1) hne, fun b _ hv phi _ => .inl fun k p a _ hp hedge => ?_,
      fun d hd => absurd (hvalues d) hd⟩
    obtain rfl := (hreach b).mp hv.1
    exact absurd hedge (hform.entry p hp)
  unfold visitBlock
  rw [if_pos rfl, Learns.bind_iff]
  refine (Learns.forM (fun rest => Balanced g (fun _ => False) (· ∈ rest)) hstart fun d rest f hf => ?_).mono
    fun _ f₁ h₁ => ?_
  · refine learns_visitInst hform (hf.mono fun j hj => ?_)
    exact (List.mem_cons.mp hj).symm.imp_right .inl
  rw [Learns.bind_iff, Learns.lift_iff]
  intro ss hss
  refine (Learns.forM (fun rest f => Balanced g (fun _ => False) (fun _ => False) f ∧
    ∀ c ∈ ss, c ∉ rest → f.isReachable c = true) ⟨h₁.mono fun j hj => by simp at hj, fun c hc hno => absurd hc hno⟩
    fun c rest f hf => ?_).mono fun _ f' hf' => ?_
  · refine learns_reach.mono fun _ f' hr => ⟨hf.1.reach hr, fun c' hc' hno => ?_⟩
    by_cases heq : c' = c
    · exact (hr.reachable c').mpr (.inl heq)
    · exact hr.mono (hf.2 c' hc' (by simp [heq, hno]))
  · refine ⟨hf'.1.entered, fun c hc => hf'.2 c ?_ (by simp), hf'.1.initial, hf'.1.insts, hf'.1.phis, hf'.1.recorded⟩
    unfold FlowGraph.Edge at hc
    rwa [FlowGraph.next_of_ok hss] at hc

/-- If the analysis has a result, nothing is left to do. -/
theorem analyze_settles (hform : SsaForm g) (hrun : analyze g = .ok f) : Settles g f := by
  unfold analyze at hrun
  obtain ⟨r, hr, hrun₁⟩ := bind_eq_ok.mp hrun
  obtain ⟨⟨_, f'⟩, hrun₂, hrun₃⟩ := bind_eq_ok.mp hrun₁
  obtain rfl := pure_eq_ok.mp hrun₃
  have hempty (m : Nat) : r.contains m = false := by
    unfold NumberSet.ofCapacity NumberSet.extend at hr
    split at hr
    · rw [← Except.ok.inj hr]
      simp [NumberSet.contains]
    · cases hr
  suffices hlearns : Learns { reachable := r } (do reach FlowGraph.graphEntry; drain g (visitLimit g))
      fun _ f => Settles g f from hlearns _ _ hrun₂
  have hno : ¬ Facts.isReachable { reachable := r } FlowGraph.graphEntry = true := by
    simp [Facts.isReachable, hempty]
  rw [Learns.bind_iff]
  unfold reach
  simp only [Learns.bind_iff, Learns.get_iff, if_neg hno, Learns.lift_iff, Learns.set_iff]
  intro r' hr'
  cases visitLimit g with
  | zero => exact Learns.throw_iff.mpr trivial
  | succ steps =>
    unfold drain
    simp only [Learns.bind_iff, Learns.get_iff, Learns.set_iff]
    refine (learns_visitEntry hform (fun b => ?_) rfl fun d => ?_).mono fun _ f₁ h₁ => ?_
    · refine (NumberSet.contains_of_insert hr' b.index).trans ?_
      simp [hempty, BlockId.index_inj]
    · simp [Facts.value, SideTable.get?]
    · exact (learns_drain hform steps h₁).mono fun _ f h => h.1.settles hform h.2.1 h.2.2

end Midend.Constants

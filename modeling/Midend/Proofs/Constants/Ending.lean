import Mathlib.Algebra.Order.BigOperators.Group.Finset
import Midend.Builder
import Midend.Proofs.Constants.Fixpoint
import Midend.Ssa

/-! # When the analysis ends

The analysis records what the inputs of a definition tell, be it more than what was recorded before or less. It is less
only where a class decides identity with null: such a comparison varies as long as its null is not known, and is a
constant afterwards. Where no class decides, knowledge only rises, and the rounds come to an end.
-/

namespace Midend.Constants

open Execution Ssa FlowGraph Relation
open Representations (ReadsDefinitions)

variable {g : FlowGraph} {f f' f₁ : Facts} {i d : InstId} {n m : Node} {e : Inst} {b c : BlockId} {x : Knowledge}

/-! ## Null tests -/

/-- No class decides whether input `k` of `i`, which is `own`, is null: nothing is known of its class, it is a constant,
which never varies, or it is compared with a constant that is not null. -/
def NullTestOpen (g : FlowGraph) (i : InstId) (k : Nat) (own other : InstId) : Prop :=
  (∃ cls, g.useClass i k = .ok cls ∧ (cls = .dynamic ∨ cls = .illegal)) ∨ (∃ a, g.constantOf own = .ok (some a)) ∨
    ∃ a, g.constantOf other = .ok (some a) ∧ a.isNull = false

/-- If the instruction compares identity, no class decides it. -/
def IdentityOpen (g : FlowGraph) (i : InstId) : Prop :=
  ∀ n c, g.nodes[i.index]? = some n → n.inst = .compare c → c.kind = .strict →
    NullTestOpen g i 0 c.left c.right ∧ NullTestOpen g i 1 c.right c.left

/-- No class decides a comparison with null that can be executed. Those of branches do not count. -/
def NullTestsOpen (g : FlowGraph) : Prop := ∀ i, InCode g i → IdentityOpen g i

instance (k : Nat) (own other : InstId) : Decidable (NullTestOpen g i k own other) :=
  decidable_of_iff ((∃ cls ∈ (g.useClass i k).toOption, cls = .dynamic ∨ cls = .illegal) ∨
      (∃ c ∈ (g.constantOf own).toOption, c.isSome = true) ∨
      ∃ c ∈ (g.constantOf other).toOption, ∃ a ∈ c, a.isNull = false) <| by
    simp [NullTestOpen, toOption_eq_some_iff, Option.isSome_iff_exists]

/-- The comparison of an instruction that evaluates to whether its inputs are the same. -/
def identityTest? : Inst → Option Comparison
  | .compare c => if c.kind = .strict then some c else none
  | _ => none

theorem identityTest?_eq_some {cmp : Comparison} :
    identityTest? e = some cmp ↔ e = .compare cmp ∧ cmp.kind = .strict := by
  cases e with
  | compare c =>
    rw [identityTest?, Option.ite_none_right_eq_some, Option.some_inj, Inst.compare.injEq]
    exact ⟨fun ⟨hkind, heq⟩ => ⟨heq, heq ▸ hkind⟩, fun ⟨heq, hkind⟩ => ⟨heq ▸ hkind, heq⟩⟩
  | _ => simp [identityTest?]

instance : Decidable (IdentityOpen g i) :=
  decidable_of_iff (∀ n ∈ g.nodes[i.index]?, ∀ c ∈ identityTest? n.inst,
      NullTestOpen g i 0 c.left c.right ∧ NullTestOpen g i 1 c.right c.left) <| by
    simp only [IdentityOpen, Option.mem_def, identityTest?_eq_some, and_imp]
    exact ⟨fun h n c hn => h n hn c, fun h n hn c => h n c hn⟩

theorem nullTestsOpen_of_nodes (h : ∀ k < g.nodes.size, IdentityOpen g ⟨k⟩) : NullTestsOpen g :=
  fun i _ n c hn => h i.index (Array.getElem?_eq_some_iff.mp hn).1 n c hn

def ConstantsKnown (g : FlowGraph) (f : Facts) : Prop :=
  ∀ d a, g.constantOf d = .ok (some a) → (f.value d).Below (.known a)

theorem constantOf_eq_ok {a : Constant} :
    g.constantOf d = .ok (some a) ↔ ∃ n, g.nodes[d.index]? = some n ∧ n.inst = .constant a := by
  unfold constantOf
  simp only [bind_eq_ok, inst_eq_ok, pure_eq_ok]
  constructor
  · rintro ⟨e, ⟨n, hn, rfl⟩, hconst⟩
    refine ⟨n, hn, ?_⟩
    cases h : n.inst <;> simp_all [Inst.constant?]
  · rintro ⟨n, hn, ha⟩
    exact ⟨_, ⟨n, hn, rfl⟩, by rw [ha]; rfl⟩

theorem NullTestOpen.compareNull {k : Nat} {own other : InstId} {negate : Bool} (h : NullTestOpen g i k own other)
    (hconst : ConstantsKnown g f) (hnull : f.value other = .known .null) (hvarying : f.value own = .varying) :
    compareNull g i k negate = .ok .varying := by
  obtain ⟨cls, hcls, hopen⟩ | ⟨a, ha⟩ | ⟨a, ha, hnot⟩ := h
  · unfold Constants.compareNull
    rw [hcls]
    simp [bind, Except.bind, pure, Except.pure, hopen]
  · have hbelow := hconst own a ha
    rw [hvarying, Knowledge.varying_below] at hbelow
    cases hbelow
  · have hsame := hconst other a ha
    rw [hnull, Knowledge.known_below_known] at hsame
    rw [Constant.eq_of_same_null (Constant.same_symm hsame)] at hnot
    cases hnot

theorem compareValue_of_open (hopen : IdentityOpen g i) (hconst : ConstantsKnown g f) {cmp : Comparison}
    (hn : g.nodes[i.index]? = some n) (hcompare : n.inst = .compare cmp) : compareValue g f i cmp = .ok
      (if cmp.kind = .strict then Knowledge.compareSame (cmp.op == .neStrict) (f.value cmp.left) (f.value cmp.right)
        else Knowledge.compareOrdered cmp.op (f.value cmp.left) (f.value cmp.right)) := by
  unfold compareValue
  dsimp only
  split
  case isFalse => rfl
  case isTrue hkind =>
    obtain ⟨hleft, hright⟩ := hopen n cmp hn hcompare hkind
    unfold compareIdentity
    split
    case h_2 hnull hvarying =>
      rw [hright.compareNull hconst hnull hvarying, hnull, hvarying]
      rfl
    case h_3 hvarying hnull =>
      rw [hleft.compareNull hconst hnull hvarying, hnull, hvarying]
      rfl
    all_goals simp_all [Knowledge.compareSame, pure, Except.pure]

/-! ## What inputs tell keeps the order -/

theorem phiValue_below {inputs : List (BlockId × InstId)}
    (h : ∀ q ∈ inputs, f.isReachable q.1 = true → (f.value q.2).Below x) : (phiValue f inputs).Below x := by
  have hfold (rest : List (BlockId × InstId)) (y : Knowledge) (hy : y.Below x)
      (hrest : ∀ q ∈ rest, (f.value q.2).Below x) :
      (rest.foldl (fun v q => v.join (f.value q.2)) y).Below x := by
    induction rest generalizing y with
    | nil => exact hy
    | cons q rest ih =>
      obtain ⟨hq, hrest⟩ := List.forall_mem_cons.mp hrest
      exact ih _ (Knowledge.join_below hy hq) hrest
  refine hfold _ _ (Knowledge.unknown_below x) fun q hq => ?_
  obtain ⟨hmem, hmarked⟩ := List.mem_filter.mp hq
  exact h q hmem (by simpa using hmarked)

theorem unevaluated_mono (hvalues : ∀ a, (f.value a).Below (f'.value a)) :
    ((unevaluated f e).getD .unknown).Below ((unevaluated f' e).getD .unknown) := by
  unfold unevaluated
  dsimp only
  split
  case isTrue => exact Knowledge.unknown_below _
  split
  case isTrue hvarying =>
    obtain ⟨y, hy, hsame⟩ := List.any_eq_true.mp hvarying
    obtain ⟨a, ha, rfl⟩ := List.mem_map.mp hy
    have hvarying' : (e.args.map f'.value).any (· == .varying) = true := by
      have ha' := hvalues a
      rw [Knowledge.beq_varying_iff.mp hsame, Knowledge.varying_below] at ha'
      exact List.any_eq_true.mpr ⟨f'.value a, List.mem_map_of_mem ha, Knowledge.beq_varying_iff.mpr ha'⟩
    rw [if_pos hvarying']
    exact Knowledge.below_varying _
  split
  case isTrue => exact Knowledge.unknown_below _
  case isFalse hknown =>
    have hknown' : ¬ (e.args.map f'.value).any (· == .unknown) = true := by
      intro hunknown
      obtain ⟨y, hy, hsame⟩ := List.any_eq_true.mp hunknown
      obtain ⟨a, ha, rfl⟩ := List.mem_map.mp hy
      have ha' := hvalues a
      rw [Knowledge.beq_unknown_iff.mp hsame, Knowledge.below_unknown] at ha'
      exact hknown (List.any_eq_true.mpr ⟨f.value a, List.mem_map_of_mem ha, Knowledge.beq_unknown_iff.mpr ha'⟩)
    rw [if_neg hknown']
    split <;> exact Knowledge.below_varying _

structure Below (f f' : Facts) : Prop where
  values : ∀ a, (f.value a).Below (f'.value a)
  reachable : ∀ b, f.isReachable b = true → f'.isReachable b = true

theorem transfer_mono (hopen : IdentityOpen g i) (hconst : ConstantsKnown g f) (hconst' : ConstantsKnown g f')
    (h : Below f f') (hn : g.nodes[i.index]? = some n) :
    ((transfer g f i n.inst).toOption.join.getD .unknown).Below
      ((transfer g f' i n.inst).toOption.join.getD .unknown) := by
  unfold transfer
  split
  case h_3 a _ => exact h.values a
  case h_4 range inputs _ =>
    cases itemAt inputs 0 with
    | error => exact Knowledge.unknown_below _
    | ok a => exact h.values a
  case h_5 cmp hcompare =>
    rw [compareValue_of_open hopen hconst hn hcompare, compareValue_of_open hopen hconst' hn hcompare]
    show Knowledge.Below (if _ then _ else _) (if _ then _ else _)
    split
    case isTrue => exact Knowledge.compareSame_mono (h.values _) (h.values _)
    case isFalse => exact Knowledge.compareOrdered_mono (h.values _) (h.values _)
  case h_6 => exact Knowledge.smiOp_mono (h.values _) (h.values _)
  case h_7 => exact Knowledge.negate_mono (h.values _)
  case h_11 => exact unevaluated_mono h.values
  all_goals exact Knowledge.below_refl _

theorem given_mono (hopen : IdentityOpen g i) (hconst : ConstantsKnown g f) (hconst' : ConstantsKnown g f')
    (h : Below f f') : (given g f i).Below (given g f' i) := by
  unfold given
  cases hn : g.nodes[i.index]? with
  | none => exact Knowledge.below_refl _
  | some n =>
    dsimp only
    split
    case isTrue =>
      refine phiValue_below fun q hq hmarked => (h.values q.2).trans ?_
      exact below_phiValue hq (h.reachable q.1 hmarked)
    case isFalse => exact transfer_mono hopen hconst hconst' h hn

/-! ## Knowledge rises -/

/-- Nothing was recorded that the inputs do not tell any more, and nothing of comparisons that cannot be executed. -/
structure Rising (g : FlowGraph) (f : Facts) : Prop where
  below : ∀ i, (f.value i).Below (given g f i)
  code : ∀ i n c, g.nodes[i.index]? = some n → n.inst = .compare c → f.value i ≠ .unknown → InCode g i

theorem given_of_constant {a : Constant} (ha : g.constantOf d = .ok (some a)) : given g f d = .known a := by
  obtain ⟨n, hn, hconst⟩ := constantOf_eq_ok.mp ha
  exact given_of_transfer (r := some (.known a)) hn (by rw [hconst]; rfl) (by rw [hconst]; rfl)

theorem Rising.constantsKnown (hr : Rising g f) : ConstantsKnown g f := fun d _ ha => given_of_constant ha ▸ hr.below d

theorem Event.below (hr : Rising g f) (h : Event g f f') : Below f f' := by
  refine ⟨fun a => ?_, fun b hb => h.isReachable hb⟩
  cases h with
  | mark => exact Knowledge.below_refl _
  | learn =>
    rw [Facts.value_learn]
    split
    case isTrue ha => exact ha ▸ hr.below a
    case isFalse => exact Knowledge.below_refl _

theorem Event.constantsKnown (hr : Rising g f) (h : Event g f f') : ConstantsKnown g f' := by
  intro d a ha
  cases h with
  | mark => exact hr.constantsKnown d a ha
  | learn =>
    rw [Facts.value_learn]
    split
    case isTrue hd =>
      subst hd
      rw [given_of_constant ha]
      exact Knowledge.below_refl _
    case isFalse => exact hr.constantsKnown d a ha

theorem Event.rising (hopen : NullTestsOpen g) (hr : Rising g f) (h : Event g f f') : Rising g f' := by
  have hbelow := h.below hr
  have hcode : ∀ i n c, g.nodes[i.index]? = some n → n.inst = .compare c → f'.value i ≠ .unknown → InCode g i := by
    intro i n c hn hc hvalue
    cases h with
    | mark => exact hr.code i n c hn hc hvalue
    | @learn d m hm hnew hcode =>
      rw [Facts.value_learn] at hvalue
      split at hvalue
      case isTrue hi =>
        subst hi
        exact hcode c (Option.some_inj.mp (hn.symm.trans hm) ▸ hc)
      case isFalse => exact hr.code i n c hn hc hvalue
  have hmono (i : InstId) (hvalue : f'.value i ≠ .unknown) : (given g f i).Below (given g f' i) := by
    refine given_mono (fun n c hn hc => ?_) hr.constantsKnown (h.constantsKnown hr) hbelow
    exact hopen i (hcode i n c hn hc hvalue) n c hn hc
  refine ⟨fun i => ?_, hcode⟩
  by_cases hvalue : f'.value i = .unknown
  · rw [hvalue]
    exact Knowledge.unknown_below _
  refine Knowledge.Below.trans ?_ (hmono i hvalue)
  cases h with
  | mark => exact hr.below i
  | learn =>
    rw [Facts.value_learn]
    split
    case isTrue hi =>
      subst hi
      exact Knowledge.below_refl _
    case isFalse => exact hr.below i

/-! ## How much is left to do -/

def unmarked (g : FlowGraph) (f : Facts) : Nat :=
  ((Finset.range g.blocks.size).filter fun k => f.isReachable ⟨k⟩ = false).card

def headroom (g : FlowGraph) (f : Facts) : Nat := ∑ k ∈ Finset.range g.nodes.size, (2 - (f.value ⟨k⟩).level)

def work (g : FlowGraph) (f : Facts) : Nat := f.blocks.length + f.definitions.length + unmarked g f + headroom g f

theorem headroom_learn (used : Bool) (hd : d.index < g.nodes.size) (hx : (f.value d).level < x.level) :
    headroom g (f.learn d x used) < headroom g f := by
  have htwo := x.level_le_two
  refine Finset.sum_lt_sum (fun k _ => ?_) ⟨d.index, Finset.mem_range.mpr hd, ?_⟩
  · rw [Facts.value_learn]
    split
    case isTrue hk =>
      rw [hk]
      omega
    case isFalse => exact le_rfl
  · rw [Facts.value_learn, if_pos rfl]
    show 2 - x.level < 2 - (f.value d).level
    omega

theorem unmarked_mark {r : NumberSet} (bs : List BlockId) (hb : b.index < g.blocks.size)
    (hnew : ¬ f.isReachable b = true) (hr : f.reachable.insert b.index = .ok r) :
    unmarked g { f with reachable := r, blocks := bs } < unmarked g f := by
  refine Finset.card_lt_card ((Finset.ssubset_iff_of_subset fun k hk => ?_).mpr ⟨b.index, ?_, ?_⟩)
  · rw [Finset.mem_filter] at hk ⊢
    refine ⟨hk.1, Bool.eq_false_iff.mpr fun hmarked => ?_⟩
    rw [(Facts.isReachable_mark bs hr ⟨k⟩).mpr (.inr hmarked)] at hk
    cases hk.2
  · exact Finset.mem_filter.mpr ⟨Finset.mem_range.mpr hb, by simpa using hnew⟩
  · rw [Finset.mem_filter, (Facts.isReachable_mark bs hr ⟨b.index⟩).mpr (.inl rfl)]
    simp

theorem Event.work_le (hg : Analyzable g) (hs : Sound g f) (hr : Rising g f) (h : Event g f f') :
    work g f' ≤ work g f := by
  cases h with
  | @learn d n hn hnew _ =>
    have hroom := headroom_learn (!n.inputUses.isEmpty) (Array.getElem?_eq_some_iff.mp hn).1
      (Knowledge.level_lt_of_below (hr.below d) hnew)
    have hlength : (f.learn d (given g f d) !n.inputUses.isEmpty).definitions.length ≤ f.definitions.length + 1 := by
      unfold Facts.learn
      dsimp only
      split <;> simp
    have hmarks : unmarked g (f.learn d (given g f d) !n.inputUses.isEmpty) = unmarked g f := rfl
    unfold work
    rw [Facts.blocks_learn]
    omega
  | @mark p b r hp hedge hnew hr' =>
    have hmarks := unmarked_mark (b :: f.blocks) (hg.lt_size ((hs.reachable hp).tail hedge)) hnew hr'
    have hroom : headroom g { f with reachable := r, blocks := b :: f.blocks } = headroom g f := rfl
    unfold work
    rw [hroom, List.length_cons]
    dsimp only
    omega

theorem Popped.work_eq (h : Popped f f₁) : work g f = work g f₁ + 1 := by
  cases h with
  | @block b rest hblocks =>
    have hmarks : unmarked g { f with blocks := rest } = unmarked g f := rfl
    have hroom : headroom g { f with blocks := rest } = headroom g f := rfl
    have hlength : f.blocks.length = rest.length + 1 := by rw [hblocks, List.length_cons]
    unfold work
    dsimp only
    omega
  | @definition d rest _ hdefs =>
    have hmarks : unmarked g { f with definitions := rest } = unmarked g f := rfl
    have hroom : headroom g { f with definitions := rest } = headroom g f := rfl
    have hlength : f.definitions.length = rest.length + 1 := by rw [hdefs, List.length_cons]
    unfold work
    dsimp only
    omega

theorem Evolves.work_le (hg : Analyzable g) (hopen : NullTestsOpen g) (hs : Sound g f) (hr : Rising g f)
    (h : Evolves g f f') : Rising g f' ∧ work g f' ≤ work g f := by
  induction h with
  | refl => exact ⟨hr, le_rfl⟩
  | tail hevents hlast ih =>
    exact ⟨hlast.rising hopen ih.1, (hlast.work_le hg (Evolves.sound hg hs hevents) ih.1).trans ih.2⟩

theorem Popped.work_lt (hg : Analyzable g) (hopen : NullTestsOpen g) (hs : Sound g f) (hr : Rising g f)
    (hpopped : Popped f f₁) (hevolves : Evolves g f₁ f') : Rising g f' ∧ work g f' < work g f := by
  have hr₁ : Rising g f₁ := by
    cases hpopped <;> exact ⟨hr.below, hr.code⟩
  obtain ⟨hr', hle⟩ := Evolves.work_le hg hopen (hpopped.sound hs) hr₁ hevolves
  have heq := hpopped.work_eq (g := g)
  exact ⟨hr', by omega⟩

theorem Kept.drain_ends (hg : Analyzable g) (hopen : NullTestsOpen g) {steps : Nat} (hk : Kept g f) (hr : Rising g f)
    (hsteps : work g f < steps) : Constants.drain g steps f ≠ .error .unsettled := by
  induction steps generalizing f with
  | zero => omega
  | succ steps ih =>
    obtain ⟨hblocks, hdefs⟩ | ⟨f₁, f', hpopped, hevolves, hround, hk'⟩ := hk.round hg
    · rw [drain_of_none steps hblocks hdefs]
      simp
    · obtain ⟨hr', hlt⟩ := hpopped.work_lt hg hopen hk.sound hr hevolves
      rw [drain_of_some steps hround]
      exact ih hk' hr' (by omega)

/-! ## The result -/

theorem work_start (hblocks : f.blocks = [graphEntry]) (hdefs : f.definitions = []) :
    work g f ≤ 1 + g.blocks.size + 2 * g.nodes.size := by
  have hmarks : unmarked g f ≤ g.blocks.size := (Finset.card_filter_le _ _).trans (Finset.card_range _).le
  have hroom : headroom g f ≤ g.nodes.size * 2 := by
    refine (Finset.sum_le_sum fun k _ => Nat.sub_le 2 (f.value ⟨k⟩).level).trans ?_
    rw [Finset.sum_const_nat fun _ _ => rfl, Finset.card_range]
  unfold work
  rw [hblocks, hdefs, List.length_singleton, List.length_nil]
  omega

/-- Whatever the bound on the rounds, the analysis ends in a fixpoint or goes on up to the bound. It goes on for ever
only if a class decides a comparison with null: otherwise there are no more rounds than blocks, and two for each
definition. -/
theorem analyze_ends (hg : Analyzable g) (hreads : ReadsDefinitions g) :
    (∀ steps, analyzeWithin g steps = .error .unsettled ∨ ∃ f, analyzeWithin g steps = .ok f ∧ IsFixpoint g f) ∧
      (NullTestsOpen g → (∃ f, analyze g = .ok f ∧ IsFixpoint g f) ∧
        ∀ steps, 1 + g.blocks.size + 2 * g.nodes.size < steps →
          ∃ f, analyzeWithin g steps = .ok f ∧ IsFixpoint g f) := by
  obtain ⟨f₀, hstart, hs, hblocks, hdefs, hmarked, hvalues⟩ := exists_start hg
  obtain ⟨f₁, f', hpopped, hevolves, hround, hk⟩ := round_start hg hs hblocks hmarked
  have hrun (steps : Nat) : analyzeWithin g steps = (drain g steps f₀).map (·.2) := by
    unfold analyzeWithin
    rw [hstart]
    show Except.bind (drain g steps f₀) _ = _
    cases drain g steps f₀ <;> rfl
  have hcases (steps : Nat) :
      analyzeWithin g steps = .error .unsettled ∨ ∃ f, analyzeWithin g steps = .ok f ∧ IsFixpoint g f := by
    cases steps with
    | zero => exact .inl (by rw [hrun]; rfl)
    | succ steps =>
      rw [hrun, drain_of_some steps hround]
      obtain hno | ⟨f, hf, hk', hblocks', hdefs'⟩ := hk.drain hg steps
      · exact .inl (by rw [hno]; rfl)
      · exact .inr ⟨f, by rw [hf]; rfl, hk'.isFixpoint hg hreads hblocks' hdefs'⟩
  refine ⟨hcases, fun hopen => ?_⟩
  have hrising : Rising g f₀ :=
    ⟨fun i => hvalues i ▸ Knowledge.unknown_below _, fun i _ _ _ _ hvalue => absurd (hvalues i) hvalue⟩
  have hends (steps : Nat) (hsteps : 1 + g.blocks.size + 2 * g.nodes.size < steps) :
      ∃ f, analyzeWithin g steps = .ok f ∧ IsFixpoint g f := by
    refine (hcases steps).resolve_left fun hno => ?_
    obtain ⟨hrising', hwork⟩ := hpopped.work_lt hg hopen hs hrising hevolves
    have hstart' := work_start (g := g) hblocks hdefs
    obtain ⟨steps, rfl⟩ : ∃ k, steps = k + 1 := ⟨steps - 1, by omega⟩
    rw [hrun, drain_of_some steps hround] at hno
    have hnot : drain g steps f' ≠ .error .unsettled := hk.drain_ends hg hopen hrising' (by omega)
    cases hdrain : drain g steps f' with
    | error e =>
      rw [hdrain] at hno hnot
      exact hnot (congrArg Except.error (Except.error.inj hno))
    | ok r => simp [hdrain, Except.map] at hno
  refine ⟨analyze_eq g ▸ hends (visitLimit g) ?_, hends⟩
  unfold visitLimit
  have hsquare : 2 * (g.nodes.size + 2) ≤ (g.nodes.size + 2) * (g.nodes.size + 2) :=
    Nat.mul_le_mul_right _ (Nat.le_add_left 2 _)
  have hshift (k : Nat) : k ≤ k <<< g.nodes.size := by
    rw [Nat.shiftLeft_eq]
    exact Nat.le_mul_of_pos_right _ (Nat.two_pow_pos _)
  have hpower := hshift ((g.nodes.size + 2) * (g.nodes.size + 2))
  omega

/-- A graph in which all that the analysis relies on is to be seen. -/
@[mk_iff]
structure AnalyzableSeen (g : FlowGraph) : Prop where
  form : FormSeen g
  definite : DefiniteSeen g
  reads : ∀ n ∈ g.nodes, ∀ d ∈ n.inst.args, ∀ m ∈ g.nodes[d.index]?, m.inst.isDefinition = true
  users : ∀ n ∈ g.nodes, ∀ u ∈ n.inputUses, u.user.index < g.nodes.size
  unconstrained : ∀ n ∈ g.nodes, n.inst.opcode ≠ .constraint
  room : g.blocks.size ≤ NumberSet.limit

instance : Decidable (AnalyzableSeen g) := decidable_of_iff _ (analyzableSeen_iff g).symm

theorem AnalyzableSeen.analyzable (h : AnalyzableSeen g) : Analyzable g where
  form := h.form.form
  definite := h.definite.definite
  users := h.users
  unconstrained n hn range inputs heq := h.unconstrained n hn (by rw [heq]; rfl)
  room := h.room

theorem AnalyzableSeen.readsDefinitions (h : AnalyzableSeen g) : ReadsDefinitions g :=
  fun _ _ n _ hn d hd m hm => h.reads n (Array.mem_of_getElem? hn) d hd m hm

def countingUp : Build Unit := do
  let header ← Build.joinBlock
  let body ← Build.targetBlock
  let exit ← Build.targetBlock
  discard <| Build.storeLocal 0 (← Build.smi 0)
  discard <| Build.goto header
  Build.appendTo header
  let done ← Build.compare (.strict .eqStrict (← Build.loadLocal 0) (← Build.smi 3))
  discard <| Build.branchIf done exit body
  Build.appendTo body
  discard <| Build.storeLocal 0 (← Build.inst (.smiOp .add (← Build.loadLocal 0) (← Build.smi 1)))
  discard <| Build.goto header
  Build.appendTo exit
  discard <| Build.returnValue (← Build.loadLocal 0)

def countingUpHolds : Except Fault Bool := do
  let ((), raw) ← countingUp.run (FlowGraph.new "f" 0 1)
  let (result, g) ← Ssa.construct.run raw
  return result.isOk && decide (AnalyzableSeen g) && decide (∀ k < g.nodes.size, IdentityOpen g ⟨k⟩)

/-- A constant is told from anything by the constants alone. -/
theorem countingUp_ends : ∃ raw g, countingUp.run (FlowGraph.new "f" 0 1) = .ok ((), raw) ∧
    Ssa.construct.run raw = .ok (.ok (), g) ∧ Analyzable g ∧ ReadsDefinitions g ∧ NullTestsOpen g ∧
    (∃ f, analyze g = .ok f ∧ IsFixpoint g f) ∧
      ∀ steps, 1 + g.blocks.size + 2 * g.nodes.size < steps → ∃ f, analyzeWithin g steps = .ok f ∧ IsFixpoint g f := by
  have hholds : countingUpHolds = .ok true := by
    have h : countingUpHolds.toOption = some true := by decide +kernel
    exact toOption_eq_some_iff.mp h
  simp only [countingUpHolds, bind_eq_ok, pure_eq_ok, Bool.and_eq_true, decide_eq_true_eq] at hholds
  obtain ⟨⟨⟨⟩, raw⟩, hraw, ⟨result, g⟩, hg, ⟨hok, hseen⟩, hopen⟩ := hholds
  have hresult : result = .ok () := by cases result <;> simp_all [Except.isOk, Except.toBool]
  have htests := nullTestsOpen_of_nodes hopen
  have hends := (analyze_ends hseen.analyzable hseen.readsDefinitions).2 htests
  exact ⟨raw, g, hraw, hresult ▸ hg, hseen.analyzable, hseen.readsDefinitions, htests, hends⟩

/-! ## A run without end -/

/-- The facts after some rounds, if something waits before each of them. -/
def rounds (g : FlowGraph) : Nat → Facts → Except Fault (Option Facts)
  | 0, f => .ok (some f)
  | n + 1, f =>
    match round g f with
    | .ok (some f') => rounds g n f'
    | r => r

theorem drain_of_rounds {n : Nat} (h : rounds g n f = .ok (some f')) :
    (∀ steps ≤ n, drain g steps f = .error .unsettled) ∧ ∀ steps, drain g (steps + n) f = drain g steps f' := by
  induction n generalizing f with
  | zero =>
    obtain rfl := Option.some_inj.mp (Except.ok.inj h)
    exact ⟨fun steps hsteps => by rw [Nat.le_zero.mp hsteps]; rfl, fun _ => rfl⟩
  | succ n ih =>
    unfold rounds at h
    split at h
    case h_2 hno => exact absurd h (hno f')
    case h_1 f₁ hround =>
      obtain ⟨hbelow, habove⟩ := ih h
      refine ⟨fun steps hsteps => ?_, fun steps => (drain_of_some _ hround).trans (habove steps)⟩
      cases steps with
      | zero => rfl
      | succ steps => exact (drain_of_some steps hround).trans (hbelow steps (Nat.le_of_succ_le_succ hsteps))

theorem drain_of_cycle {n : Nat} (h : rounds g (n + 1) f = .ok (some f)) (steps : Nat) :
    drain g steps f = .error .unsettled := by
  obtain ⟨hbelow, habove⟩ := drain_of_rounds h
  induction steps using Nat.strong_induction_on with
  | _ steps ih =>
    obtain hlt | hle := Nat.lt_or_ge (n + 1) steps
    case inr => exact hbelow steps hle
    case inl =>
      obtain ⟨k, rfl⟩ := Nat.exists_eq_add_of_le' hlt.le
      rw [habove]
      exact ih k (by omega)

def sameScalar : Option Knowledge → Option Knowledge → Bool
  | none, none => true
  | some (.known a), some (.known b) => a == b && a.classId != .immutableArray
  | some .unknown, some .unknown | some .varying, some .varying => true
  | _, _ => false

theorem eq_of_sameScalar {x y : Option Knowledge} (h : sameScalar x y = true) : x = y := by
  unfold sameScalar at h
  split at h
  case h_2 a b =>
    obtain ⟨hsame, hclass⟩ := Bool.and_eq_true_iff.mp h
    obtain rfl | ⟨i, as, bs, rfl, rfl⟩ := Constant.eq_of_same hsame
    · rfl
    · simp [Constant.classId] at hclass
  case h_5 => cases h
  all_goals rfl

/-- The same facts, as far as no arrays are known. -/
def Facts.agrees (f f' : Facts) : Bool :=
  f.values.slots.isEqv f'.values.slots sameScalar && f.reachable == f'.reachable && f.blocks == f'.blocks &&
    f.definitions == f'.definitions

theorem eq_of_agrees (h : f.agrees f' = true) : f = f' := by
  simp only [Facts.agrees, Bool.and_eq_true, beq_iff_eq, Array.isEqv_iff_rel] at h
  obtain ⟨⟨⟨⟨hsize, hslots⟩, hreachable⟩, hblocks⟩, hdefs⟩ := h
  have hvalues : f.values.slots = f'.values.slots :=
    Array.ext hsize fun k hk _ => eq_of_sameScalar (hslots k hk)
  obtain ⟨⟨slots⟩, reachable, blocks, definitions⟩ := f
  obtain ⟨⟨slots'⟩, reachable', blocks', definitions'⟩ := f'
  simp_all

/-- A loop that passes what is known around four of its variables, all of them true. In the block that is entered when
the sum is not zero, the sum is compared with null before the null is known. -/
def chasingLoop : Build Unit := do
  let header ← Build.joinBlock
  let again ← Build.targetBlock
  let latch ← Build.targetBlock
  let never ← Build.targetBlock
  let late ← Build.targetBlock
  let back ← Build.targetBlock
  let exit ← Build.targetBlock
  discard <| Build.storeLocal 0 (← Build.constant (.bool true))
  discard <| Build.storeLocal 1 (← Build.smi 0)
  discard <| Build.storeLocal 2 (← Build.constant (.bool true))
  discard <| Build.storeLocal 6 (← Build.smi 0)
  discard <| Build.goto header
  Build.appendTo header
  let first ← Build.compare (.strict .eqStrict (← Build.loadLocal 2) (← Build.constant (.bool true)))
  discard <| Build.storeLocal 3 first
  let second ← Build.compare (.strict .eqStrict (← Build.loadLocal 3) (← Build.constant (.bool true)))
  discard <| Build.storeLocal 4 second
  discard <| Build.storeLocal 5 (← Build.inst (.smiOp .add (← Build.loadLocal 1) (← Build.loadLocal 6)))
  discard <| Build.branch (.strict .eqStrict (← Build.loadLocal 5) (← Build.smi 0)) again late
  Build.appendTo again
  discard <| Build.branchIf (← Build.constant (.bool true)) latch never
  Build.appendTo latch
  discard <| Build.storeLocal 2 (← Build.loadLocal 0)
  discard <| Build.storeLocal 0 (← Build.loadLocal 4)
  discard <| Build.storeLocal 1 (← Build.smi 1)
  discard <| Build.goto header
  Build.appendTo never
  discard <| Build.storeLocal 2 (← Build.loadLocal 3)
  discard <| Build.goto header
  Build.appendTo late
  discard <| Build.storeLocal 2 (← Build.compare (.strict .neStrict (← Build.loadLocal 5) (← Build.constant .null)))
  discard <| Build.branch (.strict .eqStrict (← Build.loadLocal 5) (← Build.smi 5)) back exit
  Build.appendTo back
  discard <| Build.storeLocal 0 (← Build.loadLocal 4)
  discard <| Build.goto header
  Build.appendTo exit
  discard <| Build.returnValue (← Build.smi 7)

def chasingHolds : Except Fault Bool := do
  let ((), raw) ← chasingLoop.run (FlowGraph.new "f" 0 7)
  let (result, g) ← Ssa.construct.run raw
  let f₀ ← start g
  match ← rounds g 22 f₀ with
  | none => return false
  | some f =>
    match ← rounds g 6 f with
    | none => return false
    | some f' =>
      return result.isOk && f.agrees f' && decide (AnalyzableSeen g) && decide (∀ n ∈ g.nodes, n.cls = none) &&
        g.reaching.isEmpty

/-- When the sum begins to vary, its comparison with null is looked at while the null is not known, and varies. This is
on its way around the loop when the block is visited and the comparison becomes true, and what is true follows what
varies for ever. -/
theorem chasingLoop_never_ends : ∃ raw g, chasingLoop.run (FlowGraph.new "f" 0 7) = .ok ((), raw) ∧
    Ssa.construct.run raw = .ok (.ok (), g) ∧ g.Consistent ∧ Analyzable g ∧ ReadsDefinitions g ∧
    (∀ n ∈ g.nodes, n.cls = none) ∧ g.reaching = [] ∧ ∀ steps, analyzeWithin g steps = .error .unsettled := by
  have hholds : chasingHolds = .ok true := by
    have h : chasingHolds.toOption = some true := by decide +kernel
    exact toOption_eq_some_iff.mp h
  simp only [chasingHolds, bind_eq_ok] at hholds
  obtain ⟨⟨⟨⟩, raw⟩, hraw, ⟨result, g⟩, hg, f₀, hf₀, found, hfound, hholds⟩ := hholds
  split at hholds
  case h_1 => cases hholds
  case h_2 f =>
    obtain ⟨found', hfound', hholds⟩ := bind_eq_ok.mp hholds
    split at hholds
    case h_1 => cases hholds
    case h_2 f' =>
      simp only [pure_eq_ok, Bool.and_eq_true, decide_eq_true_eq, List.isEmpty_iff] at hholds
      obtain ⟨⟨⟨⟨hok, hagrees⟩, hseen⟩, hclasses⟩, hreaching⟩ := hholds
      have hresult : result = .ok () := by cases result <;> simp_all [Except.isOk, Except.toBool]
      obtain rfl := eq_of_agrees hagrees
      refine ⟨raw, g, hraw, hresult ▸ hg, hseen.form.consistent, hseen.analyzable, hseen.readsDefinitions, hclasses,
        hreaching, fun steps => ?_⟩
      obtain ⟨hbelow, habove⟩ := drain_of_rounds hfound
      have hdrain : drain g steps f₀ = .error .unsettled := by
        obtain hlt | hle := Nat.lt_or_ge 22 steps
        case inr => exact hbelow steps hle
        case inl =>
          obtain ⟨k, rfl⟩ := Nat.exists_eq_add_of_le' hlt.le
          rw [habove]
          exact drain_of_cycle hfound' k
      unfold analyzeWithin
      rw [hf₀]
      show Except.bind (drain g steps f₀) _ = _
      rw [hdrain]
      rfl

end Midend.Constants

import Midend.Proofs.Ranges.Steady

/-! # Constraints find their places

Where the orders are up to date and the use lists are exact, nothing that the making of constraints asks for is missing.
A constraint takes over the uses behind its position, and from there on it may be constrained itself.
-/

namespace Midend.Ranges

open FlowGraph

variable {g₀ g g' : FlowGraph} {pos : InstId → Position} {cs placed loads gone : List InstId} {s s' : Progress}
  {b : BlockId} {a c d i : InstId} {n n₀ : Node} {k : Nat} {p : Position} {u : Use} {range : Range}

/-! ## Renaming -/

namespace Steady

theorem not_mem_of_offer (hu : Unconstrained g₀) (h : Steady g₀ pos cs placed loads gone g) (hd : Offers g₀ d) :
    d ∉ cs := fun hmem => by
  obtain ⟨n, hn, -⟩ := hd.exists_node hu
  exact Nat.not_lt.mpr (h.fresh d (.inl hmem)) (Array.getElem?_eq_some_iff.mp hn).1

theorem mem_of_old (h : Steady g₀ pos cs placed loads gone g) (hi : i ∈ g₀.insts b) (hgone : i ∉ gone) :
    i ∈ g.insts b := by
  have hmem : i ∈ (g₀.insts b).filter (· ∉ gone) := List.mem_filter.mpr ⟨hi, decide_eq_true hgone⟩
  rw [← h.spread.kept b] at hmem
  exact (List.mem_filter.mp hmem).1

variable (hu : Unconstrained g₀) (ht : Tractable g₀) (h : Steady g₀ pos cs placed loads [] g)

include hu ht h

/-- It can be told whether a use is behind a position. -/
theorem isBehind (hp : Seated g₀ p) (hr : Reader g₀ placed [] u.user) : Yields False (isBehind g p u) fun behind =>
    ∀ b, g₀.Reachable b → u.user ∈ g₀.insts b → (behind = true ↔ Passed g₀ p u.user) := by
  obtain ⟨home, n, hhome, hn, hblock⟩ := h.node_of_reader ht hr
  have hdominates (b : BlockId) {c : BlockId} (hc : g₀.Reachable c) :
      Yields False (g.dominates b c) fun r => r = true ↔ g₀.Dominates b c := by
    obtain ⟨r, hr, hiff⟩ := ht.current.exactDominators.dominates b c hc
    rw [h.dominates, hr]
    exact hiff
  have hsame {b : BlockId} (hi : u.user ∈ g₀.insts b) : b = home ∧ n.inst.opcode ≠ .phi := by
    obtain ⟨n₀, hn₀, hblock₀⟩ := ht.node_of_mem hi
    obtain ⟨m, hm, hshape, hkept, -⟩ := h.kept _ _ hn₀
    obtain rfl := Option.some_inj.mp (hn.symm.trans hm)
    refine ⟨Option.some_inj.mp ((hkept List.not_mem_nil).trans hblock₀ |>.symm.trans hblock), ?_⟩
    rw [opcode_of_shape hshape]
    exact hu.phisApart.opcode_ne_phi hu.located hi hn₀
  -- a phi is in no list of a block
  have hphis (b : BlockId) (hphi : n.inst.opcode = .phi) : ∃ ps, g.preds home = .ok ps ∧
      (ps[u.index]? = none ∨ ∃ pred, ps[u.index]? = some pred ∧ Yields False (g.dominates b pred) fun behind =>
        ∀ c, g₀.Reachable c → u.user ∈ g₀.insts c → (behind = true ↔ Passed g₀ p u.user)) := by
    obtain ⟨ps, hps, hreach⟩ := h.preds ht hhome
    refine ⟨ps, hps, ?_⟩
    cases hk : ps[u.index]? with
    | none => exact .inl rfl
    | some pred =>
      exact .inr ⟨pred, rfl, (hdominates b (hreach pred (List.mem_of_getElem? hk))).mono fun _ _ _ c _ hi =>
        absurd hphi (hsame hi).2⟩
  -- the point is in the block `b`
  have hplain (b : BlockId) {here : Except Fault Bool} (hb : g₀.Reachable b)
      (hbelow : ∀ c, g₀.Reachable c → u.user ∈ g₀.insts c → b ≠ c → (g₀.Dominates b c ↔ Passed g₀ p u.user))
      (hhere : Yields False here fun behind => u.user ∈ g₀.insts b → (behind = true ↔ Passed g₀ p u.user)) :
      Yields False (if home ≠ b then g.dominates b home else here) fun behind =>
        ∀ c, g₀.Reachable c → u.user ∈ g₀.insts c → (behind = true ↔ Passed g₀ p u.user) := by
    split
    case isTrue hne =>
      refine (hdominates b hhome).mono fun r _ hdom c hc hi => ?_
      obtain rfl := (hsame hi).1
      exact hdom.trans (hbelow c hc hi (Ne.symm hne))
    case isFalse heq =>
      refine hhere.mono fun r _ hpassed c hc hi => hpassed ?_
      obtain rfl := (hsame hi).1
      exact not_ne_iff.mp heq ▸ hi
  unfold Ranges.isBehind
  cases p with
  | start b =>
    rw [Yields.bind_iff, Yields.pure_iff, Yields.bind_iff, instBlock_eq_ok.mpr ⟨n, hn, hblock⟩, Yields.ok_iff]
    dsimp only
    rw [Yields.bind_iff, opcode_eq_ok.mpr ⟨n, hn, rfl⟩, Yields.ok_iff]
    split
    case isTrue hphi =>
      obtain ⟨ps, hps, hpred⟩ := hphis b hphi
      rw [Yields.bind_iff, hps, Yields.ok_iff]
      obtain hk | ⟨pred, hk, hdom⟩ := hpred
      · rw [hk]
        exact fun _ _ hi => absurd hphi (hsame hi).2
      · rw [hk]
        exact hdom
    refine hplain b hp (fun c hc hi _ => ⟨.within hc hi, fun hpassed => ?_⟩) fun hi =>
      ⟨fun _ => .within hp hi (.refl b), fun _ => rfl⟩
    obtain ⟨-, hi', hdom⟩ := hpassed
    exact home_unique hu.located hi hi' ▸ hdom
  | after i =>
    obtain ⟨b, hb, hi⟩ := hp
    obtain ⟨n₀, hn₀, hblock₀⟩ := ht.node_of_mem hi
    obtain ⟨m, hm, -, hkept, -⟩ := h.kept i n₀ hn₀
    obtain ⟨front, rest, hsplit⟩ := List.append_of_mem (h.mem_of_old hi List.not_mem_nil)
    have hafter := h.spread.sound.after_eq_ok.mpr ⟨b, front, hsplit⟩
    rw [Yields.bind_iff, instBlock_eq_ok.mpr ⟨m, hm, (hkept List.not_mem_nil).trans hblock₀⟩, Yields.ok_iff,
      Yields.bind_iff, Yields.pure_iff, Yields.bind_iff, instBlock_eq_ok.mpr ⟨n, hn, hblock⟩, Yields.ok_iff]
    dsimp only [Option.map_some]
    rw [Yields.bind_iff, opcode_eq_ok.mpr ⟨n, hn, rfl⟩, Yields.ok_iff]
    split
    case isTrue hphi =>
      obtain ⟨ps, hps, hpred⟩ := hphis b hphi
      rw [Yields.bind_iff, hps, Yields.ok_iff]
      obtain hk | ⟨pred, hk, hdom⟩ := hpred
      · rw [hk]
        exact fun _ _ hj => absurd hphi (hsame hj).2
      · rw [hk]
        exact hdom
    refine hplain b hb (fun c hc hj hne => ⟨.below hi hc hj hne, fun hpassed => ?_⟩) ?_
    · cases hpassed with
      | below hi' _ hj' _ hdom =>
        obtain rfl := home_unique hu.located hi hi'
        exact home_unique hu.located hj hj' ▸ hdom
      | @behind b' _ _ front back _ hsplit hj' =>
        obtain rfl : b = b' := home_unique hu.located hi (by simp [hsplit])
        exact absurd (home_unique hu.located (by simp [hsplit, hj']) hj) hne
    rw [Yields.bind_iff, hafter, Yields.ok_iff]
    intro hj
    obtain ⟨front₀, hsplit₀⟩ := h.split_of_after hi List.not_mem_nil hafter
    obtain ⟨n₁, hn₁, -⟩ := ht.node_of_mem hj
    rw [List.filter_eq_self.mpr fun _ _ => by simp] at hsplit₀
    have hmem : u.user ∈ rest.filter (·.index < g₀.nodes.size) ↔ u.user ∈ rest :=
      List.mem_filter.trans (and_iff_left (decide_eq_true (Array.getElem?_eq_some_iff.mp hn₁).1))
    refine (decide_eq_true_iff).trans (hmem.symm.trans ⟨.behind hb hsplit₀, fun hpassed => ?_⟩)
    cases hpassed with
    | below hi' _ hj' hne =>
      obtain rfl := home_unique hu.located hi hi'
      exact absurd (home_unique hu.located hj hj') hne
    | @behind b' _ _ front back _ hsplit hj' =>
      obtain rfl : b = b' := home_unique hu.located hi (by simp [hsplit])
      obtain ⟨-, rfl⟩ := hu.located.sound.split_unique hsplit hsplit₀
      exact hj'

end Steady

/-- Inputs `d` behind the position are now `c`. The other inputs are what they were. -/
structure Renamed (g₀ : FlowGraph) (p : Position) (d c : InstId) (g g' : FlowGraph) : Prop where
  inputs : ∀ u : Use, g'.inputAt u = g.inputAt u ∨ u.user ≠ c ∧ g.inputAt u = some d ∧ g'.inputAt u = some c
  behind : ∀ (u : Use) b, g₀.Reachable b → u.user ∈ g₀.insts b → Passed g₀ p u.user → g.inputAt u = some d →
    g'.inputAt u = some c

theorem Steady.renameBehind (hu : Unconstrained g₀) (ht : Tractable g₀) (h : Steady g₀ pos cs placed loads [] g)
    (hp : Seated g₀ p) (hc : c ∈ cs) (hpos : pos c = p) (hd : Operand g₀ cs d) :
    Leads False g (Ranges.renameBehind p d c) fun _ g' =>
      Steady g₀ pos cs placed loads [] g' ∧ Renamed g₀ p d c g g' ∧ g'.nodes.size = g.nodes.size := by
  obtain ⟨n, hn⟩ : ∃ n, g.nodes[d.index]? = some n := ⟨_, Array.getElem?_eq_getElem (h.operand_lt hu hd)⟩
  obtain ⟨hnodup, hmem⟩ := h.lists d n.inputUses (by unfold inputUses?; rw [hn]; rfl)
  unfold Ranges.renameBehind
  rw [Leads.bind_iff, Leads.get_iff, Leads.bind_iff, Leads.lift_iff, inputUses_eq_ok.mpr ⟨n, hn, rfl⟩, Yields.ok_iff]
  refine (Leads.forM (fun done g₁ => Steady g₀ pos cs placed loads [] g₁ ∧ g₁.nodes.size = g.nodes.size ∧
    (∀ u, g₁.inputAt u = g.inputAt u ∨ u ∈ done ∧ u.user ≠ c ∧ g.inputAt u = some d ∧ g₁.inputAt u = some c) ∧
    ∀ u ∈ done, ∀ b, g₀.Reachable b → u.user ∈ g₀.insts b → Passed g₀ p u.user → g₁.inputAt u = some c)
    ⟨h, rfl, fun _ => .inl rfl, fun _ hu => nomatch hu⟩ ?_).mono fun _ g₁ ⟨h₁, hsize, hnamed, hpassed⟩ =>
      ⟨h₁, ⟨fun u => (hnamed u).imp_right And.right, fun u b hb hi hp hk => ?_⟩, hsize⟩
  case refine_2 => exact hpassed u ((hmem u).mpr ⟨.inl ⟨ht.discovered hb hi, List.not_mem_nil⟩, hk⟩) b hb hi hp
  rintro done u rest g₁ hsplit ⟨h₁, hsize, hnamed, hpassed⟩
  -- the use stays as it is where it is not behind the position
  have hstay (hnot : ∀ b, g₀.Reachable b → u.user ∈ g₀.insts b → ¬ Passed g₀ p u.user) :
      Steady g₀ pos cs placed loads [] g₁ ∧ g₁.nodes.size = g.nodes.size ∧
      (∀ v, g₁.inputAt v = g.inputAt v ∨
        v ∈ done ++ [u] ∧ v.user ≠ c ∧ g.inputAt v = some d ∧ g₁.inputAt v = some c) ∧
      ∀ v ∈ done ++ [u], ∀ b, g₀.Reachable b → v.user ∈ g₀.insts b → Passed g₀ p v.user → g₁.inputAt v = some c := by
    refine ⟨h₁, hsize, fun v => (hnamed v).imp_right fun hv => ⟨List.mem_append_left _ hv.1, hv.2⟩,
      fun v hv b hb hi hp => ?_⟩
    obtain hv | hv := List.mem_append.mp hv
    · exact hpassed v hv b hb hi hp
    · obtain rfl := List.mem_singleton.mp hv
      exact absurd hp (hnot b hb hi)
  obtain ⟨hr, hvalue⟩ := (hmem u).mp (by simp [hsplit])
  have hnot : u ∉ done := fun hdone => by
    rw [hsplit] at hnodup
    exact (List.nodup_append.mp hnodup).2.2 u hdone u List.mem_cons_self rfl
  have hvalue₁ : g₁.inputAt u = some d := ((hnamed u).resolve_right fun hv => hnot hv.1).trans hvalue
  obtain ⟨-, m, -, hm, -⟩ := h₁.node_of_reader ht hr
  by_cases hne : u.user = c
  · rw [if_pos hne]
    refine hstay fun b _ hi => absurd (hne ▸ hi) fun hi => ?_
    obtain ⟨n₀, hn₀, -⟩ := ht.node_of_mem hi
    exact Nat.not_lt.mpr (h.fresh c (.inl hc)) (Array.getElem?_eq_some_iff.mp hn₀).1
  rw [if_neg hne]
  have hdead : Yields False (isDead g₁ u) fun dead => dead = true → m.inst.opcode = .phi := by
    unfold isDead
    rw [Yields.bind_iff, opcode_eq_ok.mpr ⟨m, hm, rfl⟩, Yields.ok_iff]
    split
    case isTrue hphi =>
      rw [Yields.bind_iff, isAlivePhi_eq_ok.mpr ⟨m, hm, rfl⟩]
      exact fun _ => hphi
    case isFalse => exact fun heq => nomatch heq
  rw [Leads.bind_iff, Leads.get_iff, Leads.bind_iff, Leads.lift_iff]
  refine hdead.mono fun dead _ hdead => ?_
  split
  case isTrue htrue =>
    refine hstay fun b _ hi => absurd (hdead htrue) ?_
    obtain ⟨n₀, hn₀, -⟩ := ht.node_of_mem hi
    obtain ⟨m', hm', hshape, -⟩ := h₁.kept _ _ hn₀
    obtain rfl := Option.some_inj.mp (hm.symm.trans hm')
    rw [opcode_of_shape hshape]
    exact hu.phisApart.opcode_ne_phi hu.located hi hn₀
  rw [Leads.bind_iff, Leads.get_iff, Leads.bind_iff, Leads.lift_iff]
  refine (h₁.isBehind hu ht hp hr).mono fun behind _ hbehind => ?_
  split
  case isFalse hfalse => exact hstay fun b hb hi => fun hpassed => hfalse ((hbehind b hb hi).mpr hpassed)
  case isTrue htrue =>
    have harg : m.inst.args[u.index]? = some d := by rw [← inputAt_of_node hm rfl, hvalue₁]
    refine (Leads.setArg fun _ => ⟨m, hm, (List.getElem?_eq_some_iff.mp harg).1⟩).mono ?_
    rintro _ _ ⟨m', a, hm', ha, rfl⟩
    obtain rfl := Option.some_inj.mp (hm.symm.trans hm')
    obtain rfl := Option.some_inj.mp (harg.symm.trans ha)
    refine ⟨h₁.rewired hr hvalue₁ (.inr hc) fun _ b hb hi => hpos ▸ (hbehind b hb hi).mp htrue,
      size_rewired.trans hsize, fun v => ?_, fun v hv b hb hi hp => ?_⟩
    all_goals
      rw [inputAt_rewired hvalue₁]
      split
    case isTrue hv =>
      subst hv
      exact .inr ⟨by simp, hne, hvalue, rfl⟩
    case isFalse hv => exact (hnamed v).imp_right fun hv' => ⟨List.mem_append_left _ hv'.1, hv'.2⟩
    · rfl
    case isFalse hne =>
      exact hpassed v ((List.mem_append.mp hv).resolve_right fun hv => hne (List.mem_singleton.mp hv)) b hb hi hp

/-! ## Making constraints -/

/-- A boundary that serves as a length: its symbol is known, and it can be lowered by one. -/
def IsLength (g₀ : FlowGraph) (cs loads : List InstId) (b : Boundary) : Prop :=
  SymbolIn (Symbolic g₀ cs loads) b ∧ ∃ last, lastIndex b = .ok last

theorem IsLength.mono {cs' loads' : List InstId} {b : Boundary} (h : IsLength g₀ cs loads b) (hcs : cs ⊆ cs')
    (hloads : loads ⊆ loads') : IsLength g₀ cs' loads' b :=
  ⟨fun d o heq => (h.1 d o heq).mono hcs hloads, h.2⟩

/-- What was found so far: the graph is steady, all constraints have their places, and lengths are lengths. -/
structure Working (g₀ : FlowGraph) (pos : InstId → Position) (gone : List InstId) (s : Progress) (g : FlowGraph) :
    Prop where
  steady : Steady g₀ pos s.constraints s.constraints s.lengthLoads gone g
  lengths : ∀ x ∈ s.lengths, IsLength g₀ s.constraints s.lengthLoads x.2

/-- The constraints `new` on `d` were added. They have taken over inputs that were `d`, and less lies behind them than
behind `d`. -/
structure Advanced (g₀ : FlowGraph) (d : InstId) (new : List InstId) (pos pos' : InstId → Position) (s s' : Progress)
    (g g' : FlowGraph) : Prop where
  constraints : s'.constraints = s.constraints ++ new
  loads : s.lengthLoads ⊆ s'.lengthLoads
  kept : ∀ e ∈ s.constraints, pos' e = pos e
  deeper : ∀ e ∈ new, d ∈ s.constraints → rank g₀ (pos' e) < rank g₀ (pos d)
  size : g.nodes.size ≤ g'.nodes.size
  inputs : ∀ u : Use, u.user.index < g.nodes.size →
    g'.inputAt u = g.inputAt u ∨ g.inputAt u = some d ∧ ∃ e ∈ new, g'.inputAt u = some e

theorem Advanced.of_same (hs : s'.constraints = s.constraints) (hloads : s.lengthLoads ⊆ s'.lengthLoads)
    (hsize : g.nodes.size ≤ g'.nodes.size)
    (hinputs : ∀ u : Use, u.user.index < g.nodes.size → g'.inputAt u = g.inputAt u) :
    Advanced g₀ d [] pos pos s s' g g' where
  constraints := hs.trans (List.append_nil _).symm
  loads := hloads
  kept _ _ := rfl
  deeper _ he := nomatch he
  size := hsize
  inputs u hu := .inl (hinputs u hu)

theorem Advanced.trans {pos' pos'' : InstId → Position} {new new' : List InstId} {s'' : Progress} {g'' : FlowGraph}
    (h : Advanced g₀ d new pos pos' s s' g g') (h' : Advanced g₀ d new' pos' pos'' s' s'' g' g'') :
    Advanced g₀ d (new ++ new') pos pos'' s s'' g g'' where
  constraints := by rw [h'.constraints, h.constraints, List.append_assoc]
  loads := List.Subset.trans h.loads h'.loads
  kept e he := (h'.kept e (h.constraints ▸ List.mem_append_left _ he)).trans (h.kept e he)
  deeper e he hd := by
    obtain he | he := List.mem_append.mp he
    · rw [h'.kept e (h.constraints ▸ List.mem_append_right _ he)]
      exact h.deeper e he hd
    · rw [← h.kept d hd]
      exact h'.deeper e he (h.constraints ▸ List.mem_append_left _ hd)
  size := Nat.le_trans h.size h'.size
  inputs u hu := by
    obtain hsame | ⟨hd, e, he, heq⟩ := h'.inputs u (Nat.lt_of_lt_of_le hu h.size)
    · refine (h.inputs u hu).imp hsame.trans fun ⟨hd, e, he, heq⟩ => ⟨hd, e, ?_, hsame.trans heq⟩
      exact List.mem_append_left _ he
    · have hd' : g.inputAt u = some d := (h.inputs u hu).elim (fun hsame => hsame.symm.trans hd) And.left
      exact .inr ⟨hd', e, List.mem_append_right _ he, heq⟩

/-- The length of a list that a call makes can be looked at. -/
theorem Steady.pushed_arg (h : Steady g₀ pos cs placed loads gone g) {function : FunctionId} {arguments : List InstId}
    {pushed : InstId} (hmeasured : Measured g₀ (.staticCall function arguments .array))
    (hpushed : arguments.getLast? = some pushed) : Yields False (g.arg pushed 0) (Operand g₀ cs) := by
  obtain ⟨b, hb, hmem, k₀, hk₀, hargs⟩ := hmeasured rfl pushed hpushed
  obtain ⟨k, hk, hshape, -⟩ := h.kept pushed k₀ hk₀
  have hne : k.inst.args ≠ [] := fun hnil => by
    have hlength := length_args_of_shape hshape
    rw [hnil] at hlength
    exact hargs (List.eq_nil_of_length_eq_zero hlength.symm)
  obtain ⟨x, rest, heq⟩ := List.exists_cons_of_ne_nil hne
  rw [arg_eq_ok.mpr ⟨k, hk, by rw [heq]; rfl⟩]
  exact h.operands pushed k (.inl ⟨b, hb, .inl hmem⟩) hk x (heq ▸ List.mem_cons_self)

theorem length_args_of_branch {v : Inst} (hop : v.opcode = .branch) : v.args.length ≤ 2 := by
  cases v with
  | compare c =>
    have hop : c.opcode = .branch := hop
    unfold Comparison.opcode at hop
    cases hkind : c.kind <;> simp [hkind] at hop
  | unary | binary | binaryOp | unaryOp | branch => simp [Inst.args]
  | _ => cases hop

theorem lastIndex_ofDefinition {b : Boundary} (hsmi : ∀ v, g.smiConstantOf d = .ok (some v) → Word.IsSmi v)
    (hb : ofDefinition g d 0 = .ok b) : ∃ last, lastIndex b = .ok last := by
  obtain ⟨c, hc, hb⟩ := bind_eq_ok.mp hb
  cases c with
  | none =>
    obtain rfl := Except.ok.inj hb
    exact ⟨_, rfl⟩
  | some v =>
    obtain rfl := Except.ok.inj hb
    obtain ⟨hlo, hhi⟩ := hsmi v hc
    have hfits : Word.Fits (Word.addSaturating v 0 - 1) := by
      unfold Word.smiMin at hlo
      unfold Word.smiMax at hhi
      unfold Word.Fits Word.addSaturating Word.least Word.greatest
      omega
    exact ⟨_, bind_eq_ok.mpr ⟨_, orFault_eq_ok.mpr (if_pos hfits), rfl⟩⟩

theorem IsLength.symbolIn_last {b last : Boundary} (h : IsLength g₀ cs loads b) (hlast : lastIndex b = .ok last) :
    SymbolIn (Symbolic g₀ cs loads) last := by
  cases b with
  | constant v =>
    obtain ⟨w, -, hlast⟩ := bind_eq_ok.mp hlast
    obtain rfl := Except.ok.inj hlast
    exact symbolIn_constant
  | symbol d o =>
    obtain ⟨o', -, hlast⟩ := bind_eq_ok.mp hlast
    obtain rfl := Except.ok.inj hlast
    exact symbolIn_symbol (h.1 d o rfl)
  | unknown =>
    obtain rfl := Except.ok.inj hlast
    exact symbolIn_constant

/-- If a comparison can be read as a range, its negation can be read, too. -/
theorem SelfContained.comparedRange {P : InstId → Prop} (hg : SelfContained g P) (hd : P d) (op : Token) :
    Yields False (comparedRange? g op d) fun range => ∀ r, range = some r →
      RangeIn P r ∧ ∃ op', op.negated = .ok op' := by
  have hdefinition (offset : Int) : Yields False (Ranges.ofDefinition g d offset) (SymbolIn P) := hg.ofDefinition hd
  unfold comparedRange?
  cases op with
  | eq =>
    rw [Yields.bind_iff]
    refine (hdefinition 0).mono fun lo _ hlo => ?_
    rw [Yields.bind_iff]
    refine (hdefinition 0).mono fun hi _ hhi => ?_
    rintro _ ⟨⟩
    exact ⟨rangeIn_mk hlo hhi, _, rfl⟩
  | ne =>
    rintro _ ⟨⟩
    exact ⟨rangeIn_unknown, _, rfl⟩
  | lt | lte =>
    rw [Yields.bind_iff]
    refine (hdefinition _).mono fun hi _ hhi => ?_
    rintro _ ⟨⟩
    exact ⟨rangeIn_mk symbolIn_constant hhi, _, rfl⟩
  | gt | gte =>
    rw [Yields.bind_iff]
    refine (hdefinition _).mono fun lo _ hlo => ?_
    rintro _ ⟨⟩
    exact ⟨rangeIn_mk hlo symbolIn_constant, _, rfl⟩
  | _ => rintro _ ⟨⟩

theorem lastIndex_length {k : Nat} (hk : (k : Int) ≤ Word.greatest) : ∃ last, lastIndex (.constant k) = .ok last := by
  have hfits : Word.Fits (k - 1) := by
    unfold Word.greatest at hk
    unfold Word.Fits Word.least Word.greatest
    omega
  exact ⟨_, bind_eq_ok.mpr ⟨_, orFault_eq_ok.mpr (if_pos hfits), rfl⟩⟩

/-- The constraint `c` on `d` holds from the position on: the inputs `d` behind it are `c` now. -/
structure Takes (g₀ : FlowGraph) (p : Position) (d c : InstId) (g g' : FlowGraph) : Prop where
  value : g'.inputAt ⟨c, 0⟩ = some d
  behind : ∀ (u : Use) b, g₀.Reachable b → u.user ∈ g₀.insts b → Passed g₀ p u.user → g.inputAt u = some d →
    g'.inputAt u = some c

/-- At most one constraint on `d` was made, and one was made unless `d` is a constant. -/
def Constrained (g₀ : FlowGraph) (pos : InstId → Position) (p : Position) (d : InstId) (s s' : Progress)
    (g g' : FlowGraph) : Prop :=
  ∃ pos' new, Working g₀ pos' [] s' g' ∧ Advanced g₀ d new pos pos' s s' g g' ∧ new.length ≤ 1 ∧
    (g.constantOf d = .ok none → ∃ c, new = [c] ∧ Takes g₀ p d c g g')

section

variable (hu : Unconstrained g₀) (ht : Tractable g₀)

include hu ht

theorem threads_constrain (h : Working g₀ pos [] s g) (hd : Operand g₀ s.constraints d)
    (hr : RangeIn (Symbolic g₀ s.constraints s.lengthLoads) range) (hp : Seated g₀ p)
    (hdeep : d ∈ s.constraints → rank g₀ p < rank g₀ (pos d)) {dependency : Option InstId}
    (hdependency : ∀ x, dependency = some x → Operand g₀ s.constraints x) :
    Threads False g s (constrain d range p dependency) fun _ s' g' => Constrained g₀ pos p d s s' g g' := by
  have hconstant {x : InstId} (hx : Operand g₀ s.constraints x) : Yields False (g.constantOf x) fun _ => True := by
    obtain ⟨v, hv⟩ := (h.steady.selfContained ht hu).listed x (.inl hx)
    unfold FlowGraph.constantOf
    rw [Yields.bind_iff, hv]
    trivial
  have hfresh : g.nextId ∉ s.constraints := fun hmem => by
    obtain ⟨n, -, -, -, hn, -⟩ := h.steady.made _ hmem
    exact Nat.lt_irrefl _ (Array.getElem?_eq_some_iff.mp hn).1
  generalize hpos : (fun e => if e = g.nextId then p else pos e) = pos'
  have hnew : pos' g.nextId = p := by rw [← hpos]; exact if_pos rfl
  have hold (e : InstId) (he : e ∈ s.constraints) : pos' e = pos e := by
    rw [← hpos]
    exact if_neg fun (heq : e = g.nextId) => hfresh (heq ▸ he)
  have hsub : s.constraints ⊆ s.constraints ++ [g.nextId] := List.subset_append_left _ _
  have hmem : g.nextId ∈ s.constraints ++ [g.nextId] := by simp
  have hmake (rest : List InstId) (hargs : ∀ x ∈ d :: rest, Operand g₀ s.constraints x) (place : InstId → Edit Unit)
      (hplace : ∀ g₁ n, Steady g₀ pos' (s.constraints ++ [g.nextId]) s.constraints s.lengthLoads [] g₁ →
        g₁.nodes[g.nextId.index]? = some n → Leads False g₁ (place g.nextId) fun _ g₂ =>
          ∃ b is, g₂ = g₁.settled g.nextId n b is ∧ g₀.Reachable b ∧ is.Perm (g.nextId :: g₁.insts b) ∧
            is.filter (·.index < g₀.nodes.size) = (g₁.insts b).filter (·.index < g₀.nodes.size)) :
      Threads False g s (do
        let constraint ← Edit.addInst (.constraint range (d :: rest))
        Ranges.renameBehind p d constraint
        place constraint
        discard <| Edit.allocSsaIndex constraint
        modify fun s => { s with constraints := s.constraints ++ [constraint] }) fun _ s' g' =>
        Constrained g₀ pos p d s s' g g' := by
    have hstart : Steady g₀ pos' (s.constraints ++ [g.nextId]) s.constraints s.lengthLoads []
        (g.withInst { inst := .constraint range (d :: rest) }) := by
      refine h.steady.extended hu ht hsub (List.Subset.refl _) hargs hold
        (List.nodup_append.mpr ⟨h.steady.once, List.nodup_singleton _, ?_⟩) (by simp) (fun c hc => ?_) fun _ => .inl
      · rintro x hx _ hy rfl
        exact hfresh (List.mem_singleton.mp hy ▸ hx)
      · refine (List.mem_append.mp hc).imp_right fun hc => ⟨List.mem_singleton.mp hc, range, d, rest, rfl, ?_⟩
        exact hr.mono fun _ hx => hx.mono hsub (List.Subset.refl _)
    rw [Threads.bind_iff, Threads.lift_iff, Leads.addInst_iff, Threads.bind_iff, Threads.lift_iff]
    refine (hstart.renameBehind hu ht hp hmem hnew (hd.mono hsub)).mono fun _ g₁ hrun => ?_
    obtain ⟨h₁, hrenamed, hsize⟩ := hrun
    obtain ⟨n, -, -, -, hn, -⟩ := h₁.made _ hmem
    rw [Threads.bind_iff, Threads.lift_iff]
    refine (hplace g₁ n h₁ hn).mono ?_
    rintro _ _ ⟨b, is, rfl, hb, hperm, hkept⟩
    have h₂ := h₁.settled ht hmem hfresh hb hn hperm hkept
    obtain ⟨m, -, -, -, hm, -⟩ := h₂.made _ hmem
    rw [Threads.bind_iff, Threads.discard_iff, Threads.lift_iff, Leads.allocSsaIndex_iff]
    refine ⟨fun _ => ?_, fun hge => absurd (Array.getElem?_eq_some_iff.mp hm).1 (Nat.not_lt.mpr hge)⟩
    rw [Threads.modify_iff]
    have hsettled (u : Use) : ((g₁.settled g.nextId n b is).numbered g.nextId).inputAt u = g₁.inputAt u :=
      (inputAt_numbered u).trans (maps_settled.inputAt (fun j m => by rw [inst_settled]) u)
    refine ⟨pos', [g.nextId], ⟨h₂.numbered _, fun x hx => (h.lengths x hx).mono hsub (List.Subset.refl _)⟩,
      ⟨rfl, List.Subset.refl _, hold, fun e he hd => ?_, ?_, fun u hlt => ?_⟩, Nat.le_refl _, fun _ =>
      ⟨g.nextId, rfl, ?_, fun u b hb hi hp hk => ?_⟩⟩
    · rw [List.mem_singleton.mp he, hnew]
      exact hdeep hd
    · have hcount : ((g₁.settled g.nextId n b is).numbered g.nextId).nodes.size = g.nodes.size + 1 := by
        unfold numbered
        rw [size_withNode, size_settled, hsize, size_withInst]
      exact Nat.le_trans (Nat.le_succ _) hcount.ge
    · rw [hsettled, ← inputAt_withInst hlt]
      exact (hrenamed.inputs u).imp_right fun hnamed => ⟨hnamed.2.1, g.nextId, by simp, hnamed.2.2⟩
    · rw [hsettled, (hrenamed.inputs _).resolve_right fun hnamed => hnamed.1 rfl]
      have hself : (g.withInst { inst := .constraint range (d :: rest) }).nodes[g.nextId.index]? =
          some { inst := .constraint range (d :: rest) } := by
        rw [nodes_withInst, if_pos rfl]
      exact inputAt_of_node hself rfl
    · obtain ⟨n₀, hn₀, -⟩ := ht.node_of_mem hi
      have hlt := h.steady.old_lt (Array.getElem?_eq_some_iff.mp hn₀).1
      rw [hsettled]
      exact hrenamed.behind u b hb hi hp ((inputAt_withInst hlt).trans hk)
  have hplaced (rest : List InstId) (hargs : ∀ x ∈ d :: rest, Operand g₀ s.constraints x)
      {finish : InstId → Analysis Unit} (hfinish : ∀ c, finish c = do
        (Position.casesOn p Edit.prepend Edit.insertAfter : InstId → Edit Unit) c
        discard <| Edit.allocSsaIndex c
        modify fun s => { s with constraints := s.constraints ++ [c] }) : Threads False g s (do
        let constraint ← Edit.addInst (.constraint range (d :: rest))
        Ranges.renameBehind p d constraint
        finish constraint) fun _ s' g' => Constrained g₀ pos p d s s' g g' := by
    simp only [hfinish]
    cases p with
    | start b =>
      refine hmake rest hargs (Edit.prepend b) fun g₁ n h₁ hn => ?_
      refine (Leads.prepend hn (h₁.free hmem hfresh)).mono fun _ g₂ heq => ⟨b, _, heq, hp, .refl _, ?_⟩
      exact List.filter_cons_of_neg (by simpa using h₁.fresh _ (.inl hmem))
    | after i =>
      refine hmake rest hargs (Edit.insertAfter i) fun g₁ n h₁ hn => ?_
      obtain ⟨b, hb, hi⟩ := hp
      obtain ⟨n₀, hn₀, hblock₀⟩ := ht.node_of_mem hi
      obtain ⟨m, hm, -, hblock, -⟩ := h₁.kept i n₀ hn₀
      have hi₁ := h₁.mem_of_old hi List.not_mem_nil
      refine (Leads.insertAfter hn (h₁.free hmem hfresh) hm (h₁.spread.sound.mem_iff.mp hi₁)
        ((hblock List.not_mem_nil).trans hblock₀)).mono fun _ g₂ heq => ⟨b, _, heq, hb, Layout.putAfter_perm hi₁, ?_⟩
      exact Layout.filter_putAfter (decide_eq_false (Nat.not_lt.mpr (h₁.fresh _ (.inl hmem)))) _
  unfold constrain
  rw [Threads.bind_iff, Threads.getThe_iff, Threads.bind_iff, Threads.read_iff]
  refine (hconstant hd).mono fun value hvalue _ => ?_
  split
  case isTrue hsome =>
    refine ⟨pos, [], h, .of_same rfl (List.Subset.refl _) (Nat.le_refl _) fun _ _ => rfl, Nat.zero_le _,
      fun hnone => ?_⟩
    obtain rfl := Except.ok.inj (hvalue.symm.trans hnone)
    cases hsome
  have hself : ∀ x ∈ [d], Operand g₀ s.constraints x := by simpa using hd
  cases dependency with
  | some x =>
    have hx := hdependency x rfl
    rw [Threads.bind_iff, Threads.read_iff]
    refine (hconstant hx).mono fun value _ _ => ?_
    split
    all_goals rw [Threads.bind_iff, Threads.pure_iff]
    · refine hplaced [x] (by simpa using ⟨hd, hx⟩) fun c => ?_
      cases p <;> rfl
    · refine hplaced [] hself fun c => ?_
      cases p <;> rfl
  | none =>
    rw [Threads.bind_iff, Threads.pure_iff]
    refine hplaced [] hself fun c => ?_
    cases p <;> rfl

/-! ## Lengths -/

theorem threads_lengthSymbol (h : Working g₀ pos gone s g) (ha : Operand g₀ s.constraints a) (cls : ClassId) :
    Threads False g s (lengthSymbol a cls) fun b s' g' => Working g₀ pos gone s' g' ∧
      Advanced g₀ d [] pos pos s s' g g' ∧ IsLength g₀ s'.constraints s'.lengthLoads b := by
  unfold lengthSymbol
  cases cls.lengthOffset? with
  | none =>
    rw [Threads.pure_iff]
    exact ⟨h, .of_same rfl (List.Subset.refl _) (Nat.le_refl _) fun _ _ => rfl, symbolIn_unknown, _, rfl⟩
  | some offset =>
    have hloads : s.lengthLoads ⊆ g.nextId :: s.lengthLoads := List.subset_cons_self _ _
    have hsymbol : Symbolic g₀ s.constraints (g.nextId :: s.lengthLoads) g.nextId := .inr List.mem_cons_self
    have hnew := h.steady.extended hu ht (v := .loadField offset .smi (lengthGetter cls) true a) (List.Subset.refl _)
      hloads (by simpa [Inst.args] using ha) (fun _ _ => rfl) h.steady.once (Nat.le_succ _) (fun _ => .inl)
      fun x hx => (List.mem_cons.mp hx).symm.imp_right fun heq => ⟨heq, offset, .smi, lengthGetter cls, true, a, rfl⟩
    have hrange : RangeIn (Symbolic g₀ s.constraints (g.nextId :: s.lengthLoads)) (lengthRange (lengthGetter cls)) := by
      unfold lengthRange
      split
      all_goals exact rangeIn_between
    have hlt : ¬ (g.withInst { inst := .loadField offset .smi (lengthGetter cls) true a }).nodes.size ≤
        g.nextId.index := by
      rw [size_withInst]
      exact Nat.not_le.mpr (Nat.lt_succ_self _)
    dsimp only
    rw [Threads.bind_iff, Threads.lift_iff, Leads.addInst_iff, Threads.bind_iff, Threads.discard_iff, Threads.lift_iff,
      Leads.allocSsaIndex_iff]
    refine ⟨fun _ => ?_, fun hge => absurd hge hlt⟩
    unfold Edit.setRange
    rw [Threads.bind_iff, Threads.lift_iff, Leads.modifyNode_iff]
    refine ⟨fun _ => ?_, fun hge => absurd (by simpa [numbered] using hge) hlt⟩
    rw [Threads.bind_iff, Threads.modify_iff, Threads.pure_iff]
    refine ⟨⟨(hnew.numbered _).ranged _ fun r hr => Option.some_inj.mp hr ▸ hrange,
      fun x hx => (h.lengths x hx).mono (List.Subset.refl _) hloads⟩, .of_same rfl hloads ?_ fun u hlt => ?_,
      symbolIn_symbol hsymbol, _, rfl⟩
    · simp [numbered]
    · rw [inputAt_withNode (by intro n; rfl), inputAt_numbered, inputAt_withInst hlt]

theorem Steady.measured (h : Steady g₀ pos cs placed loads gone g) {v : Inst} (ha : Operand g₀ cs a)
    (hv : g.inst a = .ok v) (hno : v.opcode ≠ .constraint) : Measured g₀ v := by
  obtain ⟨n, hn, rfl⟩ := inst_eq_ok.mp hv
  have hoffer : Offers g₀ a := ha.resolve_right fun hc => by
    obtain ⟨m, r, x, rest, hm, hconstraint, -⟩ := h.made a hc
    obtain rfl := Option.some_inj.mp (hn.symm.trans hm)
    exact hno (by rw [hconstraint]; rfl)
  obtain ⟨m, n₀, hm, hn₀, hshape, -⟩ := h.node_of_offer hu hoffer
  obtain rfl := Option.some_inj.mp (hn.symm.trans hm)
  exact (measured_of_shape hshape).mpr (ht.arrays n₀ (Array.mem_toList_iff.mpr (Array.mem_of_getElem? hn₀)))

theorem threads_newLength (h : Working g₀ pos gone s g) (ha : Operand g₀ s.constraints a) (cls : ClassId) :
    Threads False g s (newLength a cls) fun b s' g' => Working g₀ pos gone s' g' ∧
      Advanced g₀ d [] pos pos s s' g g' ∧ IsLength g₀ s'.constraints s'.lengthLoads b := by
  have hcontained := h.steady.selfContained ht hu
  have hsymbol := threads_lengthSymbol hu ht (d := d) h ha cls
  unfold newLength
  rw [Threads.bind_iff, Threads.getThe_iff, Threads.bind_iff, Threads.read_iff]
  refine (hcontained.inst (.inl ha)).mono fun i _ hi => ?_
  have hmeasured := h.steady.measured hu ht ha hi
  split
  case h_1 function arguments result =>
    split
    case h_1 pushed hresult hpushed =>
      rw [Threads.bind_iff, Threads.read_iff]
      rw [beq_iff_eq.mp hresult] at hmeasured
      refine (h.steady.pushed_arg (hmeasured fun heq => by cases heq) hpushed).mono fun x _ hx => ?_
      rw [Threads.read_iff]
      refine (hcontained.ofDefinition (.inl hx)).mono fun b hb hin => ?_
      exact ⟨h, .of_same rfl (List.Subset.refl _) (Nat.le_refl _) fun _ _ => rfl, hin,
        lastIndex_ofDefinition (fun v => hcontained.smis x v (.inl hx)) hb⟩
    case h_2 => exact hsymbol
  case h_2 arguments =>
    rw [Threads.pure_iff]
    exact ⟨h, .of_same rfl (List.Subset.refl _) (Nat.le_refl _) fun _ _ => rfl, symbolIn_constant,
      lastIndex_length (hmeasured fun heq => by cases heq)⟩
  case h_3 cls elements =>
    rw [Threads.pure_iff]
    exact ⟨h, .of_same rfl (List.Subset.refl _) (Nat.le_refl _) fun _ _ => rfl, symbolIn_constant,
      lastIndex_length (hmeasured fun heq => by cases heq)⟩
  case h_4 => exact hsymbol

theorem threads_arrayLength (h : Working g₀ pos gone s g) (hr : Reader g₀ s.constraints gone i) :
    Threads False g s (arrayLength i) fun b s' g' => Working g₀ pos gone s' g' ∧
      Advanced g₀ d [] pos pos s s' g g' ∧ IsLength g₀ s'.constraints s'.lengthLoads b := by
  obtain ⟨-, n, -, hn, -⟩ := h.steady.node_of_reader ht hr
  have hargs := h.steady.operands i n (hr.imp And.left .inl) hn
  unfold arrayLength
  rw [Threads.bind_iff, Threads.getThe_iff, Threads.bind_iff, Threads.read_iff, inst_eq_ok.mpr ⟨n, hn, rfl⟩,
    Yields.ok_iff]
  split
  case h_1 cls array index hinst =>
    have ha : Operand g₀ s.constraints array := hargs array (by simp [hinst, Inst.args])
    rw [Threads.bind_iff, Threads.get_iff]
    split
    case h_1 b hlookup =>
      obtain ⟨front, rest, hsplit, -⟩ := List.lookup_eq_some_iff.mp hlookup
      exact ⟨h, .of_same rfl (List.Subset.refl _) (Nat.le_refl _) fun _ _ => rfl,
        h.lengths (array, b) (by simp [hsplit])⟩
    case h_2 =>
      rw [Threads.bind_iff]
      refine (threads_newLength hu ht (d := d) h ha cls).mono fun b s₁ g₁ hrun => ?_
      obtain ⟨h₁, hadvanced, hlength⟩ := hrun
      rw [Threads.bind_iff, Threads.modify_iff, Threads.pure_iff]
      refine ⟨⟨h₁.steady, fun x hx => ?_⟩, ⟨hadvanced.constraints, hadvanced.loads, hadvanced.kept,
        hadvanced.deeper, hadvanced.size, hadvanced.inputs⟩, hlength⟩
      obtain rfl | hx := List.mem_cons.mp hx
      · exact hlength
      · exact h₁.lengths x hx
  case h_2 =>
    rw [Threads.pure_iff]
    exact ⟨h, .of_same rfl (List.Subset.refl _) (Nat.le_refl _) fun _ _ => rfl, symbolIn_unknown, _, rfl⟩

/-! ## Uses -/

/-- The inputs that branches and bounds checks may have. -/
def slots (g₀ : FlowGraph) : Finset Use :=
  ((Finset.range g₀.nodes.size ×ˢ Finset.range 2).image fun x => ⟨⟨x.1⟩, x.2⟩).filter fun u => Discovered g₀ u.user

omit hu ht in
theorem mem_slots : u ∈ slots g₀ ↔ Discovered g₀ u.user ∧ u.user.index < g₀.nodes.size ∧ u.index < 2 := by
  unfold slots
  rw [Finset.mem_filter, Finset.mem_image, and_comm]
  refine and_congr_right fun _ => ⟨?_, fun ⟨hi, hk⟩ => ⟨(u.user.index, u.index), by simp [hi, hk], rfl⟩⟩
  rintro ⟨⟨i, k⟩, hmem, rfl⟩
  simpa using hmem

theorem threads_constrainAfterCheck (h : Working g₀ pos [] s g) (hd : Operand g₀ s.constraints d) (hb : g₀.Reachable b)
    (hi : i ∈ g₀.insts b) (hk : g.inputAt ⟨i, k⟩ = some d) : Threads False g s (constrainAfterCheck d i)
    fun _ s' g' => ∃ pos' new, Working g₀ pos' [] s' g' ∧ Advanced g₀ d new pos pos' s s' g g' ∧ new.length ≤ 1 := by
  have hr : Reader g₀ s.constraints [] i := .inl ⟨ht.discovered hb hi, List.not_mem_nil⟩
  obtain ⟨-, n, -, hn, -⟩ := h.steady.node_of_reader ht hr
  unfold constrainAfterCheck
  rw [Threads.bind_iff, Threads.getThe_iff, Threads.bind_iff, Threads.read_iff, inst_eq_ok.mpr ⟨n, hn, rfl⟩,
    Yields.ok_iff]
  split
  case h_2 => exact ⟨pos, [], h, .of_same rfl (List.Subset.refl _) (Nat.le_refl _) fun _ _ => rfl, Nat.zero_le _⟩
  split
  · exact ⟨pos, [], h, .of_same rfl (List.Subset.refl _) (Nat.le_refl _) fun _ _ => rfl, Nat.zero_le _⟩
  rw [Threads.bind_iff]
  refine (threads_arrayLength hu ht (d := d) h hr).mono fun length s₁ g₁ ⟨h₁, hadvanced, hin⟩ => ?_
  obtain ⟨last, hlast⟩ := hin.2
  have hcs : s₁.constraints = s.constraints := hadvanced.constraints.trans (List.append_nil _)
  rw [Threads.bind_iff, Threads.read_iff, hlast, Yields.ok_iff]
  refine (threads_constrain hu ht h₁ (hcs ▸ hd) (rangeIn_mk symbolIn_constant (hin.symbolIn_last hlast))
    (p := .after i) ⟨b, hb, hi⟩ (fun hmem => ?_) fun _ heq => by cases heq).mono
      fun _ s₂ g₂ ⟨pos', new, h₂, hadvanced', hle, _⟩ => ⟨pos', new, h₂, hadvanced.trans hadvanced', hle⟩
  exact rank_after_lt hu.located (h.steady.behind d (hcs ▸ hmem) i k b hb hi hk)

theorem threads_constrainAfterBranch (h : Working g₀ pos [] s g) (hd : Operand g₀ s.constraints d) (hb : g₀.Reachable b)
    (hi : u.user ∈ g₀.insts b) (hk : g.inputAt u = some d) : Threads False g s (constrainAfterBranch d u)
    fun _ s' g' => ∃ pos' new, Working g₀ pos' [] s' g' ∧ Advanced g₀ d new pos pos' s s' g g' ∧ new.length ≤ 2 := by
  have hr : Reader g₀ s.constraints [] u.user := .inl ⟨ht.discovered hb hi, List.not_mem_nil⟩
  have hcontained := h.steady.selfContained ht hu
  obtain ⟨n₀, hn₀, hblock₀⟩ := ht.node_of_mem hi
  obtain ⟨n, hn, hshape, -⟩ := h.steady.kept _ n₀ hn₀
  have hargs := h.steady.operands u.user n (.inl (ht.discovered hb hi)) hn
  have hsame : ∃ pos' new, Working g₀ pos' [] s g ∧ Advanced g₀ d new pos pos' s s g g ∧ new.length ≤ 2 :=
    ⟨pos, [], h, .of_same rfl (List.Subset.refl _) (Nat.le_refl _) fun _ _ => rfl, Nat.zero_le _⟩
  unfold constrainAfterBranch
  rw [Threads.bind_iff, Threads.getThe_iff, Threads.bind_iff, Threads.read_iff, inst_eq_ok.mpr ⟨n, hn, rfl⟩,
    Yields.ok_iff]
  split
  case h_2 => exact hsame
  case h_1 c onTrue onFalse hinst =>
    split
    · exact hsame
    case isFalse hsmi =>
      have hways : ∀ x ∈ [onTrue, onFalse], g₀.Reachable x ∧ (d ∈ s.constraints →
          rank g₀ (.start x) < rank g₀ (pos d)) := by
        intro x hx
        have hout : x ∈ waysOut n₀.inst := by
          rw [← waysOut_of_shape hshape, hinst]
          unfold waysOut
          dsimp only
          rwa [if_neg hsmi]
        obtain ⟨hx, hne, hdom⟩ := ht.ways b ((mem_order_iff ht.current).mpr hb) _ hi n₀ hn₀ x hout
        have hx := (mem_order_iff ht.current).mp hx
        obtain ⟨r, hr, hiff⟩ := ht.current.exactDominators.dominates b x hx
        obtain rfl := Except.ok.inj (hr.symm.trans (toOption_eq_some_iff.mp hdom))
        exact ⟨hx, fun hd => rank_start_lt hu.located (h.steady.behind d hd u.user u.index b hb hi hk) hi hb
          (hiff.mp rfl) (Ne.symm hne)⟩
      have hother {x : InstId} (hx : x = c.left ∨ x = c.right) : Operand g₀ s.constraints x := by
        refine hargs x ?_
        rw [hinst]
        simpa [Inst.args] using hx
      generalize hpick : (if u.index = 0 then (c.right, c.op) else (c.left, c.op.flipped)) = pick
      obtain ⟨other, op⟩ := pick
      have hoperand : Operand g₀ s.constraints other := by
        refine hother ?_
        split at hpick
        all_goals obtain ⟨rfl, -⟩ := Prod.mk.inj hpick
        · exact .inr rfl
        · exact .inl rfl
      dsimp only
      rw [Threads.bind_iff, Threads.read_iff]
      refine (hcontained.comparedRange (.inl hoperand) op).mono fun holds _ hholds => ?_
      cases holds with
      | none => exact hsame
      | some holds =>
        obtain ⟨hholds, op', hop'⟩ := hholds holds rfl
        dsimp only
        rw [Threads.bind_iff, Threads.read_iff, hop', Yields.ok_iff, Threads.bind_iff, Threads.read_iff]
        refine (hcontained.comparedRange (.inl hoperand) op').mono fun fails _ hfails => ?_
        cases fails with
        | none => exact hsame
        | some fails =>
          have hfails := (hfails fails rfl).1
          obtain ⟨htrue, hdeepTrue⟩ := hways onTrue (by simp)
          obtain ⟨hfalse, hdeepFalse⟩ := hways onFalse (by simp)
          dsimp only
          rw [Threads.bind_iff]
          refine (threads_constrain hu ht h hd hholds (p := .start onTrue) htrue hdeepTrue fun _ heq =>
            Option.some_inj.mp heq ▸ hoperand).mono fun _ s₁ g₁ hrun => ?_
          obtain ⟨pos₁, new₁, h₁, hadvanced₁, hle₁, -⟩ := hrun
          have hcs : s.constraints ⊆ s₁.constraints := hadvanced₁.constraints ▸ List.subset_append_left _ _
          have hfails' : RangeIn (Symbolic g₀ s₁.constraints s₁.lengthLoads) fails :=
            hfails.mono fun _ hx => hx.mono hcs hadvanced₁.loads
          refine (threads_constrain hu ht h₁ (hd.mono hcs) hfails' (p := .start onFalse) hfalse ?_ fun _ heq =>
            Option.some_inj.mp heq ▸ hoperand.mono hcs).mono fun _ s₂ g₂ hrun => ?_
          · intro hmem
            have hd' := hd.resolve_left fun hoffer => h₁.steady.not_mem_of_offer hu hoffer hmem
            rw [hadvanced₁.kept d hd']
            exact hdeepFalse hd'
          · obtain ⟨pos₂, new₂, h₂, hadvanced₂, hle₂, -⟩ := hrun
            refine ⟨pos₂, _, h₂, hadvanced₁.trans hadvanced₂, ?_⟩
            rw [List.length_append]
            omega

/-- One use of `d` after the other is looked at, and whatever the constraints made for them keep is kept. -/
theorem threads_constrainUses (h : Working g₀ pos [] s g) (hd : Operand g₀ s.constraints d)
    (inv : List Use → (InstId → Position) → Progress → FlowGraph → Prop)
    (hstart : ∀ us, g.inputUses d = .ok us → inv us pos s g)
    (hstep : ∀ u us pos pos' new s s' g g', Working g₀ pos [] s g → Working g₀ pos' [] s' g' →
      Advanced g₀ d new pos pos' s s' g g' → u ∉ us →
      (new = [] ∨ new.length ≤ 2 ∧ g.inputAt u = some d ∧ u ∈ slots g₀) → inv (u :: us) pos s g → inv us pos' s' g') :
    Threads False g s (constrainUses d) fun _ s' g' => ∃ pos', Working g₀ pos' [] s' g' ∧ inv [] pos' s' g' := by
  obtain ⟨n, hn⟩ : ∃ n, g.nodes[d.index]? = some n := ⟨_, Array.getElem?_eq_getElem (h.steady.operand_lt hu hd)⟩
  have huses : g.inputUses d = .ok n.inputUses := inputUses_eq_ok.mpr ⟨n, hn, rfl⟩
  obtain ⟨hnodup, hmem⟩ := h.steady.lists d n.inputUses (by unfold inputUses?; rw [hn]; rfl)
  unfold constrainUses
  rw [Threads.bind_iff, Threads.getThe_iff, Threads.bind_iff, Threads.read_iff, huses, Yields.ok_iff]
  refine (Threads.forM (fun done s₁ g₁ => ∃ pos₁, Working g₀ pos₁ [] s₁ g₁ ∧ s.constraints ⊆ s₁.constraints ∧
    g.nodes.size ≤ g₁.nodes.size ∧ (∀ u ∈ n.inputUses, ∃ a, g₁.inputAt u = some a) ∧
      ∀ rest, n.inputUses = done ++ rest → inv rest pos₁ s₁ g₁) ?_ ?_).mono fun _ s₁ g₁ ⟨pos₁, h₁, _, _, _, hinv⟩ =>
        ⟨pos₁, h₁, hinv [] (List.append_nil _).symm⟩
  · refine ⟨pos, h, List.Subset.refl _, Nat.le_refl _, fun u hmem' => ⟨d, ((hmem u).mp hmem').2⟩, ?_⟩
    rintro _ rfl
    exact hstart _ huses
  rintro done u rest s₁ g₁ hsplit ⟨pos₁, h₁, hsub, hsize, hinputs, hinv⟩
  have hused : u ∈ n.inputUses := by simp [hsplit]
  have hnot : u ∉ rest := by
    rw [hsplit] at hnodup
    exact (List.nodup_cons.mp (List.nodup_append.mp hnodup).2.1).1
  have hd₁ : Operand g₀ s₁.constraints d := hd.mono hsub
  obtain ⟨hreader, -⟩ := (hmem u).mp hused
  have hr : Reader g₀ s₁.constraints [] u.user := hreader.imp id fun hc => hsub hc
  obtain ⟨home, m, hhome, hm, hblock⟩ := h₁.steady.node_of_reader ht hr
  obtain ⟨a, ha⟩ := hinputs u hused
  have harg : m.inst.args[u.index]? = some a := by rw [← inputAt_of_node hm rfl, ha]
  -- what is to be shown where constraints were made, and where none were
  have hgoal (new : List InstId) (pos₂ : InstId → Position) (s₂ : Progress) (g₂ : FlowGraph)
      (h₂ : Working g₀ pos₂ [] s₂ g₂) (hadvanced : Advanced g₀ d new pos₁ pos₂ s₁ s₂ g₁ g₂)
      (hfew : new = [] ∨ new.length ≤ 2 ∧ g₁.inputAt u = some d ∧ u ∈ slots g₀) : ∃ pos₂, Working g₀ pos₂ [] s₂ g₂ ∧
        s.constraints ⊆ s₂.constraints ∧ g.nodes.size ≤ g₂.nodes.size ∧
        (∀ u ∈ n.inputUses, ∃ a, g₂.inputAt u = some a) ∧
          ∀ rest', n.inputUses = done ++ [u] ++ rest' → inv rest' pos₂ s₂ g₂ := by
    refine ⟨pos₂, h₂, fun c hc => hadvanced.constraints ▸ List.mem_append_left _ (hsub hc),
      Nat.le_trans hsize hadvanced.size, fun v hv => ?_, fun rest' hrest => ?_⟩
    · obtain ⟨x, hx⟩ := hinputs v hv
      have hlt : v.user.index < g₁.nodes.size := by
        obtain ⟨hreader, -⟩ := (hmem v).mp hv
        obtain ⟨-, k, -, hk, -⟩ := h.steady.node_of_reader ht hreader
        exact Nat.lt_of_lt_of_le (Array.getElem?_eq_some_iff.mp hk).1 hsize
      obtain hsame | ⟨-, e, -, he⟩ := hadvanced.inputs v hlt
      · exact ⟨x, hsame.trans hx⟩
      · exact ⟨e, he⟩
    · obtain rfl : rest = rest' := by
        rw [hsplit, List.append_assoc] at hrest
        exact (List.cons.inj (List.append_cancel_left hrest)).2
      exact hstep u rest pos₁ pos₂ new s₁ s₂ g₁ g₂ h₁ h₂ hadvanced hnot hfew (hinv (u :: rest) hsplit)
  have hstay := hgoal [] pos₁ s₁ g₁ h₁ (.of_same rfl (List.Subset.refl _) (Nat.le_refl _) fun _ _ => rfl) (.inl rfl)
  rw [Threads.bind_iff, Threads.getThe_iff, Threads.bind_iff, Threads.read_iff, instBlock_eq_ok.mpr ⟨m, hm, hblock⟩,
    Yields.ok_iff]
  split
  · exact hstay
  rw [Threads.bind_iff, Threads.read_iff, arg_eq_ok.mpr ⟨m, hm, harg⟩, Yields.ok_iff]
  split
  · exact hstay
  case isFalse heq =>
    obtain rfl : a = d := not_ne_iff.mp heq
    -- neither a constraint nor a phi branches or checks
    have hplaced (hop : m.inst.opcode ≠ .constraint) (hop' : m.inst.opcode ≠ .phi) :
        ∃ b, g₀.Reachable b ∧ u.user ∈ g₀.insts b := by
      obtain ⟨⟨b, hb, hi | hphi⟩, -⟩ | hc := hr
      · exact ⟨b, (mem_order_iff ht.current).mp hb, hi⟩
      · obtain ⟨-, n₀, hn₀, halive⟩ := hasPhi_of_live hphi
        obtain ⟨k, hk, hshape, -⟩ := h₁.steady.kept _ n₀ hn₀
        obtain rfl := Option.some_inj.mp (hm.symm.trans hk)
        rw [opcode_of_shape hshape] at hop'
        exact absurd (Inst.opcode_of_isPhi (Inst.isPhi_of_isAlivePhi halive)) hop'
      · obtain ⟨k, r, x, is, hk, hinst, -⟩ := h₁.steady.made _ hc
        obtain rfl := Option.some_inj.mp (hm.symm.trans hk)
        exact absurd (by rw [hinst]; rfl) hop
    have hslot {b : BlockId} (hb : g₀.Reachable b) (hi : u.user ∈ g₀.insts b) (hlt : u.index < 2) : u ∈ slots g₀ :=
      mem_slots.mpr ⟨ht.discovered hb hi, by
        obtain ⟨n₀, hn₀, -⟩ := ht.node_of_mem hi
        exact (Array.getElem?_eq_some_iff.mp hn₀).1, hlt⟩
    rw [Threads.bind_iff, Threads.read_iff, opcode_eq_ok.mpr ⟨m, hm, rfl⟩, Yields.ok_iff]
    split
    case h_1 hop =>
      obtain ⟨b, hb, hi⟩ := hplaced (by simp [hop]) (by simp [hop])
      have hlt : u.index < 2 :=
        Nat.lt_of_lt_of_le (List.getElem?_eq_some_iff.mp harg).1 (length_args_of_branch hop)
      exact (threads_constrainAfterBranch hu ht h₁ hd₁ hb hi ha).mono fun _ s₂ g₂ ⟨pos₂, new, h₂, hadvanced, hle⟩ =>
        hgoal new pos₂ s₂ g₂ h₂ hadvanced (.inr ⟨hle, ha, hslot hb hi hlt⟩)
    case h_2 hop =>
      split
      case isFalse => exact hstay
      case isTrue hone =>
        obtain ⟨b, hb, hi⟩ := hplaced (by simp [hop]) (by simp [hop])
        exact (threads_constrainAfterCheck hu ht h₁ hd₁ hb hi ha).mono fun _ s₂ g₂ ⟨pos₂, new, h₂, hadvanced, hle⟩ =>
          hgoal new pos₂ s₂ g₂ h₂ hadvanced (.inr ⟨Nat.le_succ_of_le hle, ha, hslot hb hi (by omega)⟩)
    case h_3 => exact hstay

end

end Midend.Ranges

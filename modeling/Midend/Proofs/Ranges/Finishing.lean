import Midend.Proofs.Ranges.Inferring

/-! # The analysis comes to its end

Where constraints do not lie on each other too deeply, every use of a constraint goes back to a value that was there
before. Then nothing holds the constraints any more, and the symbols that ranges name are definitions.
-/

namespace Midend.Ranges

open FlowGraph Ssa

variable {g₀ g g' g'' : FlowGraph} {pos : InstId → Position} {cs placed loads gone : List InstId} {s : Progress}
  {a b : Boundary} {c d e : InstId} {n : Node} {k : Nat} {f : InstId → Node → Node} {unwrapped : List (InstId × InstId)}

/-! ## What constraints lie on -/

/-- The instructions of `g` are still there, and differ at most in what is known of overflow. -/
def Kept (g g' : FlowGraph) : Prop :=
  ∀ d v, g.inst d = .ok v → ∃ v', g'.inst d = .ok v' ∧ clearOverflow v' = clearOverflow v

namespace Kept

theorem refl (g : FlowGraph) : Kept g g := fun _ v hv => ⟨v, hv, rfl⟩

theorem maps (h : Kept g g') (hmaps : Maps g' g'' f) (hf : ∀ j n, clearOverflow (f j n).inst = clearOverflow n.inst) :
    Kept g g'' := by
  intro d v hv
  obtain ⟨v', hv', hsame⟩ := h d v hv
  obtain ⟨n, hn, rfl⟩ := inst_eq_ok.mp hv'
  exact ⟨_, inst_eq_ok.mpr ⟨f d n, by rw [hmaps, hn, Option.map_some], rfl⟩, (hf d n).trans hsame⟩

theorem modifyNode {t : Node → Node} (h : Kept g g') (ht : ∀ n, clearOverflow (t n).inst = clearOverflow n.inst) :
    Leads True g' (Edit.modifyNode d t) fun _ g'' => Kept g g'' := by
  rw [Leads.modifyNode_iff]
  refine ⟨fun _ => h.maps (f := fun j n => if j = d then t n else n) (fun j => nodes_withNode _ _ _) fun j n => ?_,
    fun _ => trivial⟩
  split
  · exact ht n
  · rfl

theorem addInst (h : Kept g g') (v : Inst) : Kept g (g'.withInst { inst := v }) := by
  intro d w hw
  obtain ⟨w', hw', hsame⟩ := h d w hw
  obtain ⟨n, hn, rfl⟩ := inst_eq_ok.mp hw'
  refine ⟨_, inst_eq_ok.mpr ⟨n, ?_, rfl⟩, hsame⟩
  rw [nodes_withInst, if_neg, hn]
  rintro rfl
  exact Nat.lt_irrefl _ (Array.getElem?_eq_some_iff.mp hn).1

theorem inputAt (h : Kept g g') {u : Use} (hu : g.inputAt u = some d) : g'.inputAt u = some d := by
  obtain ⟨n, hn, hk⟩ := Option.bind_eq_some_iff.mp hu
  obtain ⟨v', hv', hsame⟩ := h u.user n.inst (inst_eq_ok.mpr ⟨n, hn, rfl⟩)
  obtain ⟨n', hn', rfl⟩ := inst_eq_ok.mp hv'
  rw [inputAt_of_node hn' rfl, ← args_clearOverflow, hsame, args_clearOverflow]
  exact hk

theorem unwrapWithin (h : Kept g g') (hrun : unwrapWithin g k d = .ok e) : unwrapWithin g' k d = .ok e := by
  induction k generalizing d with
  | zero => exact hrun
  | succ k ih =>
    obtain ⟨v, hv, hrun⟩ := bind_eq_ok.mp hrun
    obtain ⟨v', hv', hsame⟩ := h d v hv
    refine bind_eq_ok.mpr ⟨v', hv', ?_⟩
    cases v with
    | constraint r inputs =>
      obtain rfl : v' = .constraint r inputs := by
        cases v' with
        | constraint => exact hsame
        | _ => cases hsame
      obtain ⟨a, ha, hrun⟩ := bind_eq_ok.mp hrun
      exact bind_eq_ok.mpr ⟨a, ha, ih hrun⟩
    | _ =>
      cases v' with
      | constraint => cases hsame
      | _ => exact hrun

end Kept

/-- Inference leaves the inputs of instructions alone. -/
theorem tolerant_kept : Tolerant (fun _ g' => Kept g g') fun _ => True where
  visited _ _ _ _ _ _ := trivial
  range _ _ _ _ h := h.modifyNode fun _ => rfl
  clear _ _ _ h := h.modifyNode fun _ => clearOverflow_clearOverflow
  remove _ _ _ h _ _ := by
    refine Leads.remove_of_ok.mono ?_
    rintro _ _ ⟨n, b, -, -, rfl⟩
    exact h.maps maps_removed fun _ _ => rfl
  symbol d cls s g' h := by
    show Threads True g' s (lengthSymbol d cls) fun _ _ g'' => Kept g g''
    unfold lengthSymbol
    cases cls.lengthOffset? with
    | none => exact h
    | some offset =>
      dsimp only
      rw [Threads.bind_iff, Threads.lift_iff, Leads.addInst_iff, Threads.bind_iff, Threads.discard_iff,
        Threads.lift_iff, Leads.allocSsaIndex_iff]
      refine ⟨fun _ => ?_, fun _ => trivial⟩
      rw [Threads.bind_iff, Threads.lift_iff]
      refine Kept.modifyNode (Kept.maps (h.addInst _) (f := fun j n => if j = _ then _ else n)
        (fun j => nodes_withNode _ _ _) fun j n => ?_) fun _ => rfl
      split <;> rfl
  lengths _ _ _ h := h

namespace Steady

variable (hu : Unconstrained g₀)

include hu

/-- What is found below constraints is an operand again. -/
theorem operand_of_unwrap (h : Steady g₀ pos cs placed loads gone g) (hd : Operand g₀ cs d)
    (hrun : unwrapWithin g k d = .ok e) : Operand g₀ cs e := by
  induction k generalizing d with
  | zero =>
    obtain rfl := Except.ok.inj hrun
    exact hd
  | succ k ih =>
    obtain ⟨v, hv, hrun⟩ := bind_eq_ok.mp hrun
    obtain ⟨n, hn, rfl⟩ := inst_eq_ok.mp hv
    have hargs : ∀ a ∈ n.inst.args, Operand g₀ cs a := by
      obtain hoffer | hc := hd
      · obtain ⟨m, -, hm, -, -, -, -, hargs⟩ := h.node_of_offer hu hoffer
        obtain rfl := Option.some_inj.mp (hn.symm.trans hm)
        exact hargs
      · exact h.operands d n (.inr (.inl hc)) hn
    split at hrun
    case h_1 r inputs hinst =>
      obtain ⟨a, ha, hrun⟩ := bind_eq_ok.mp hrun
      refine ih (hargs a ?_) hrun
      rw [hinst]
      exact List.mem_of_getElem? (orFault_eq_ok.mp ha)
    case h_2 =>
      obtain rfl := Except.ok.inj hrun
      exact hd

/-- The uses of a constraint go back to a definition that was there before. -/
theorem redirected (h : Steady g₀ pos cs placed loads gone g) (hc : c ∈ cs) (hd : Offers g₀ d)
    (hn : g.nodes[c.index]? = some n) :
    Steady g₀ pos cs placed loads gone (g.redirected c d n.inputUses n.envUses) := by
  have hne : c ≠ d := fun heq => h.not_mem_of_offer hu hd (heq ▸ hc)
  have henv : n.envUses = [] := by
    obtain ⟨m, -, -, -, hm, -, -, -, henvUses⟩ := h.made c hc
    obtain rfl := Option.some_inj.mp (hn.symm.trans hm)
    exact henvUses
  rw [henv]
  have hus : g.inputUses? c = some n.inputUses := by
    rw [inputUses?, hn]
    rfl
  have hmaps : Maps g (g.redirected c d n.inputUses []) _ := maps_redirected
  have hsize : (g.redirected c d n.inputUses []).nodes.size = g.nodes.size := by
    simp [FlowGraph.redirected]
  refine h.change hmaps hsize rfl h.spread (List.Subset.refl _) (fun _ _ _ hb => hb) h.checks (List.Subset.refl _)
    (fun j m => ⟨?_, ?_, fun hnil => ?_⟩) (fun j m => ?_) ?_ (fun i m hm a ha => ?_) (fun x r hx hrun => ?_)
    fun x hx i k b _ _ hk => .inl ?_
  · rw [inst_takeOver, Node.redirectEnv_nil, Node.redirectInputs, shape_mapArgs]
  · rw [env_takeOver, Node.redirectEnv_nil]
    rfl
  · rw [Node.redirectEnv_nil]
    unfold Node.takeOver
    split
    · rfl
    · split <;> simp [Node.redirectInputs, hnil]
  · rw [block_takeOver, Node.redirectEnv_nil, if_neg (by simp)]
    rfl
  · refine h.lists.redirect hne hus ?_ ?_ (fun j hold hnew => ?_) inputAt_redirected
    · rw [hmaps.inputUses? (t := fun _ => []) fun m => by simp [Node.takeOver], hus]
      rfl
    · exact hmaps.inputUses? fun m => by
        simp [Node.takeOver, Ne.symm hne, Node.redirectInputs, Node.redirectEnv]
    · refine hmaps.inputUses?_eq fun m => ?_
      simp [Node.takeOver, hold, hnew, Node.redirectInputs, Node.redirectEnv]
  · rw [inst_takeOver, Node.redirectEnv_nil, Node.redirectInputs, Inst.args_mapArgs, List.mem_mapIdx] at ha
    obtain ⟨k, hk, rfl⟩ := ha
    split
    · exact .inl hd
    · exact hm _ (List.getElem_mem hk)
  · obtain ⟨m, hm, hrange⟩ := range_eq_ok.mp hrun
    rw [hmaps] at hm
    obtain ⟨m', hm', rfl⟩ := Option.map_eq_some_iff.mp hm
    refine h.ranges x r hx (range_eq_ok.mpr ⟨m', hm', ?_⟩)
    rw [← hrange]
    dsimp only
    rw [Node.redirectEnv_nil]
    unfold Node.takeOver
    split
    · rfl
    · split <;> rfl
  · rw [inputAt_redirected] at hk
    obtain ⟨a, ha, heq⟩ := Option.map_eq_some_iff.mp hk
    split at heq
    · exact absurd (heq ▸ hx) (h.not_mem_of_offer hu hd)
    · rw [ha, heq]

end Steady

/-! ## The constraints go -/

/-- Nothing uses the instructions. -/
def Idle (is : List InstId) (g : FlowGraph) : Prop := ∀ i ∈ is, g.inputUses? i = some []

theorem leads_replaceConstraints (hu : Unconstrained g₀) (h : Steady g₀ pos cs placed loads gone g)
    (hunwrapped : ∀ x ∈ unwrapped, x.1 ∈ cs ∧ Offers g₀ x.2) :
    Leads False g (unwrapped.forM fun (c, d) => Edit.replaceUses c d) fun _ g' =>
      Steady g₀ pos cs placed loads gone g' ∧ Idle (unwrapped.map Prod.fst) g' := by
  refine (Leads.forM (fun done g₁ => Steady g₀ pos cs placed loads gone g₁ ∧ Idle (done.map Prod.fst) g₁)
    ⟨h, fun i hi => nomatch hi⟩ ?_)
  rintro done ⟨c, d⟩ rest g₁ hsplit ⟨h₁, hidle⟩
  obtain ⟨hc, hd⟩ := hunwrapped (c, d) (by simp [hsplit])
  have hne : c ≠ d := fun heq => h₁.not_mem_of_offer hu hd (heq ▸ hc)
  obtain ⟨n, -, -, -, hn, -, -, -, henv⟩ := h₁.made c hc
  have hexist : g₁.UsesExist n := by
    refine ⟨fun u hu => ?_, fun u hu => by rw [henv] at hu; cases hu⟩
    obtain ⟨-, hmem⟩ := h₁.lists c n.inputUses (by unfold inputUses?; rw [hn]; rfl)
    obtain ⟨m, hm, hk⟩ := Option.bind_eq_some_iff.mp ((hmem u).mp hu).2
    exact ⟨m, hm, (List.getElem?_eq_some_iff.mp hk).1⟩
  refine (Leads.replaceUses hn hne fun _ => ⟨h₁.operand_lt hu (.inl hd), hexist⟩).mono ?_
  rintro _ _ rfl
  refine ⟨h₁.redirected hu hc hd hn, fun i hi => ?_⟩
  have hmaps : Maps g₁ (g₁.redirected c d n.inputUses n.envUses) _ := maps_redirected
  rw [List.map_append, List.mem_append, List.map_singleton, List.mem_singleton] at hi
  by_cases hic : i = c
  · subst hic
    rw [hmaps.inputUses? (t := fun _ => []) fun m => by simp [Node.takeOver], inputUses?, hn]
    rfl
  · have hi' : i ∈ cs := by
      obtain ⟨x, hx, rfl⟩ := List.mem_map.mp (hi.resolve_right hic)
      exact (hunwrapped x (by simp [hsplit, hx])).1
    have hid : i ≠ d := fun heq => h₁.not_mem_of_offer hu hd (heq ▸ hi')
    rw [hmaps.inputUses?_eq fun m => by
      simp [Node.takeOver, hic, hid, Node.redirectInputs, Node.redirectEnv], hidle i (hi.resolve_right hic)]

/-- Constraints that nothing uses can be taken out one by one. -/
theorem leads_removeEach (ht : Tractable g₀) (h : Steady g₀ pos cs cs loads gone g) (hidle : Idle cs g) :
    Leads False g (cs.forM Edit.remove) fun _ g' => Steady g₀ pos cs [] loads gone g' := by
  refine (Leads.forM (fun done g₁ => ∃ rest, cs = done ++ rest ∧ Steady g₀ pos cs rest loads gone g₁ ∧ Idle cs g₁)
    ⟨cs, rfl, h, hidle⟩ ?_).mono ?_
  · rintro done c rest g₁ hsplit ⟨rest', hsplit', h₁, hidle₁⟩
    obtain rfl := List.append_cancel_left (hsplit'.symm.trans hsplit)
    obtain ⟨hc, b, n, -, hplace, hn, -⟩ := h₁.homes c List.mem_cons_self
    have hnew := h₁.fresh c (.inl hc)
    obtain ⟨m, -, -, -, hm, -, -, -, henv⟩ := h₁.made c hc
    obtain rfl := Option.some_inj.mp (hn.symm.trans hm)
    have hunused : n.inputUses = [] := by
      have hnil := hidle₁ c hc
      rw [inputUses?, hn] at hnil
      exact Option.some_inj.mp hnil
    have hhome : g₁.layout.home? c = some b := h₁.spread.sound.mem_iff.mp hplace
    refine (Leads.remove hn fun _ => ⟨hunused, henv, Layout.isPlaced_iff.mpr ⟨b, hhome⟩⟩).mono ?_
    rintro _ _ ⟨-, -, b', hb', rfl⟩
    have hnodup : (c :: rest).Nodup := (List.nodup_append.mp (hsplit ▸ h₁.once)).2.1
    refine ⟨rest, by simp [hsplit], h₁.removed ht (.inr List.mem_cons_self) (fun x => ?_) (fun x => ?_)
      (fun hlt => absurd hlt (Nat.not_lt.mpr hnew)) hn hb', fun i hi => ?_⟩
    · rw [List.mem_cons]
      refine ⟨fun hx => ⟨.inr hx, ?_⟩, fun hx => hx.1.resolve_left hx.2⟩
      rintro rfl
      exact (List.nodup_cons.mp hnodup).1 hx
    · refine ⟨.inl, fun hx => hx.resolve_right fun hx => ?_⟩
      exact Nat.not_lt.mpr hnew hx.2
    · rw [maps_removed.inputUses? (t := fun us => us.filter fun u => (i, u) ∉ Edit.usesBy c n.inst.args) fun m => ?_,
        hidle₁ i hi]
      · rfl
      · simp [Node.dropUses]
  · rintro _ g' ⟨rest, hsplit, h', -⟩
    obtain rfl : rest = [] := by simpa using hsplit
    exact h'

/-! ## What ranges name -/

section

variable (hu : Unconstrained g₀) (ht : Tractable g₀)

include hu ht

omit hu ht in
theorem mem_of_lookup (h : unwrapped.lookup c = some e) : (c, e) ∈ unwrapped := by
  obtain ⟨front, back, rfl, -⟩ := List.lookup_eq_some_iff.mp h
  simp

/-- A boundary without constraints and loads of lengths names definitions. -/
theorem settleBoundary_offered (h : Steady g₀ pos cs placed loads gone g)
    (hcs : unwrapped.map Prod.fst = cs) (hoffered : ∀ x ∈ unwrapped, Offers g₀ x.2)
    (hb : SymbolIn (Symbolic g₀ cs loads) b) {s : Side} :
    Yields False (settleBoundary g unwrapped loads s b) (SymbolIn (Offers g₀)) := by
  have hcontained := h.selfContained ht hu
  have hsettled {d : InstId} {o : Int} (hd : Offers g₀ d ∨ d ∈ loads) :
      Yields False (if d ∈ loads then resolve g s (.symbol d o) else return .symbol d o) (SymbolIn (Offers g₀)) := by
    split
    case isTrue hload =>
      refine (hcontained.resolve s (symbolIn_symbol (.inr hload))).mono ?_
      rintro _ _ ⟨v, rfl⟩
      exact symbolIn_constant
    case isFalse hload => exact symbolIn_symbol (hd.resolve_right hload)
  unfold settleBoundary
  cases b with
  | symbol d o =>
    dsimp only
    cases hlookup : unwrapped.lookup d with
    | some e =>
      have he := hoffered (d, e) (mem_of_lookup hlookup)
      unfold ofDefinition
      dsimp only
      rw [Yields.bind_iff, Yields.bind_iff]
      refine (hcontained.smiConstantOf (.inl (.inl he))).mono fun value _ _ => ?_
      cases value with
      | some v => exact symbolIn_constant
      | none => exact hsettled (.inl he)
    | none =>
      dsimp only
      rw [Yields.bind_iff, Yields.pure_iff]
      refine hsettled ?_
      obtain (hd | hd) | hd := hb d o rfl
      · exact .inl hd
      · rw [← hcs, List.mem_map] at hd
        obtain ⟨x, hx, rfl⟩ := hd
        simpa using List.lookup_eq_none_iff.mp hlookup x hx
      · exact .inr hd
  | constant v => exact symbolIn_constant
  | unknown => exact symbolIn_unknown

/-- The symbols of the ranges of the definitions are definitions themselves. -/
def Settled (g₀ : FlowGraph) (ds : List InstId) (g : FlowGraph) : Prop :=
  ∀ d ∈ ds, ∀ r, g.range d = .ok (some r) → RangeIn (Offers g₀) r

theorem leads_settleRange_ok {ds : List InstId} (h : Steady g₀ pos cs placed loads gone g)
    (hcs : unwrapped.map Prod.fst = cs) (hoffered : ∀ x ∈ unwrapped, Offers g₀ x.2)
    (hd : Offers g₀ d) (hds : Settled g₀ ds g) : Leads False g (settleRange unwrapped loads d) fun _ g' =>
      Steady g₀ pos cs placed loads gone g' ∧ Settled g₀ (ds ++ [d]) g' := by
  have hcontained := h.selfContained ht hu
  have hsymbol : Symbolic g₀ cs loads d := .inl (.inl hd)
  unfold settleRange
  rw [Leads.bind_iff, Leads.get_iff, Leads.bind_iff, Leads.lift_iff]
  refine (hcontained.range hsymbol).mono fun value _ hvalue => ?_
  have hend (r : Range) (heq : value = some r) (s : Side) :
      Yields False (settleBoundary g unwrapped loads s (s.pick r)) (SymbolIn (Offers g₀)) :=
    settleBoundary_offered hu ht h hcs hoffered (h.ranges d r hsymbol (heq ▸ hvalue) s)
  cases value with
  | none =>
    refine ⟨h, fun e he r hr => ?_⟩
    obtain he | he := List.mem_append.mp he
    · exact hds e he r hr
    · rw [List.mem_singleton.mp he, hvalue] at hr
      cases hr
  | some r =>
    dsimp only
    rw [Leads.bind_iff, Leads.lift_iff]
    refine (hend r rfl .lower).mono fun min _ hmin => ?_
    rw [Leads.bind_iff, Leads.lift_iff]
    refine (hend r rfl .upper).mono fun max _ hmax => ?_
    have hrange : RangeIn (Offers g₀) ⟨min, max⟩ := rangeIn_mk hmin hmax
    refine ((h.leads_setRange hu ht hsymbol (hrange.mono fun _ h => .inl (.inl h))).and ?_).mono fun _ g' h' => h'
    unfold Edit.setRange
    rw [Leads.modifyNode_iff]
    refine ⟨fun _ e he r' hr' => ?_, fun hge => ?_⟩
    · obtain ⟨n, hn, hr'⟩ := range_eq_ok.mp hr'
      rw [nodes_withNode] at hn
      obtain ⟨m, hm, rfl⟩ := Option.map_eq_some_iff.mp hn
      split at hr'
      case isTrue => exact Option.some_inj.mp hr' ▸ hrange
      case isFalse hne =>
        have he' : e ∈ ds := (List.mem_append.mp he).resolve_right fun he => hne (List.mem_singleton.mp he)
        exact hds e he' r' (range_eq_ok.mpr ⟨m, hm, hr'⟩)
    · obtain ⟨n, hn, -⟩ := range_eq_ok.mp hvalue
      exact absurd (Array.getElem?_eq_some_iff.mp hn).1 (Nat.not_lt.mpr hge)

theorem leads_removeConstraints_ok (h : Steady g₀ pos cs cs loads gone g)
    (hroots : ∀ c ∈ cs, ∃ e, unwrap g c = .ok e ∧ e ∉ cs) :
    Leads False g (removeConstraints cs loads) fun _ g' =>
      ∃ ds, g'.definitions = .ok ds ∧ (∀ d, d ∈ ds ↔ Offers g₀ d) ∧ Settled g₀ ds g' := by
  have hread : (fun c => (do return (c, ← unwrap g c) : Edit (InstId × InstId))) =
      fun c => (liftM (do return (c, ← unwrap g c) : Except Fault (InstId × InstId)) : Edit _) := by
    funext c
    simp
  obtain ⟨unwrapped, hunwrapped⟩ : ∃ unwrapped, cs.mapM (fun c => do return (c, ← unwrap g c)) =
      (.ok unwrapped : Except Fault (List (InstId × InstId))) := exists_mapM fun c hc => by
    obtain ⟨e, he, -⟩ := hroots c hc
    exact ⟨(c, e), bind_eq_ok.mpr ⟨e, he, rfl⟩⟩
  have hall := mapM_eq_ok.mp hunwrapped
  have hpair {c : InstId} {x : InstId × InstId}
      (hx : (do return (c, ← unwrap g c) : Except Fault (InstId × InstId)) = .ok x) :
      x.1 = c ∧ unwrap g c = .ok x.2 := by
    obtain ⟨e, he, hx⟩ := bind_eq_ok.mp hx
    obtain rfl := Except.ok.inj hx
    exact ⟨rfl, he⟩
  have hfirst : unwrapped.map Prod.fst = cs := by
    have heq : List.Forall₂ Eq cs (unwrapped.map Prod.fst) :=
      List.forall₂_map_right_iff.mpr (hall.imp fun c x hx => (hpair hx).1.symm)
    rw [List.forall₂_eq_eq_eq] at heq
    exact heq.symm
  have hoffered (x : InstId × InstId) (hx : x ∈ unwrapped) : x.1 ∈ cs ∧ Offers g₀ x.2 := by
    obtain ⟨c, hc, hrun⟩ := forall₂_mem_right hall hx
    obtain ⟨rfl, hroot⟩ := hpair hrun
    obtain ⟨e, he, hnot⟩ := hroots _ hc
    obtain rfl := Except.ok.inj (he.symm.trans hroot)
    exact ⟨hc, (h.operand_of_unwrap hu (.inr hc) he).resolve_right hnot⟩
  unfold removeConstraints
  rw [Leads.bind_iff, Leads.get_iff, Leads.bind_iff, hread, Leads.mapM_lift_iff, hunwrapped, Yields.ok_iff,
    Leads.bind_iff]
  refine (leads_replaceConstraints hu h hoffered).mono fun _ g₁ ⟨h₁, hidle⟩ => ?_
  rw [Leads.bind_iff]
  refine (leads_removeEach ht h₁ (hfirst ▸ hidle)).mono fun _ g₂ h₂ => ?_
  obtain ⟨ds, hds, hmem⟩ := h₂.alike.definitions hu ht (fun b _ d => h₂.mem_insts_iff) h₂.checks
  rw [Leads.bind_iff, Leads.get_iff, Leads.bind_iff, Leads.lift_iff, hds, Yields.ok_iff]
  refine (Leads.forM (fun done g₃ => Steady g₀ pos cs [] loads gone g₃ ∧ Settled g₀ done g₃)
    ⟨h₂, fun d hd => nomatch hd⟩ ?_).mono fun _ g₃ ⟨h₃, hsettled⟩ => ?_
  · rintro done d rest g₃ hsplit ⟨h₃, hdone⟩
    have hd : Offers g₀ d := (hmem d).mp (by simp [hsplit])
    exact leads_settleRange_ok hu ht h₃ hfirst (fun x hx => (hoffered x hx).2) hd hdone
  · obtain ⟨ds', hds', hmem'⟩ := h₃.alike.definitions hu ht (fun b _ d => h₃.mem_insts_iff) h₃.checks
    exact ⟨ds', hds', hmem', fun d hd => hsettled d ((hmem d).mpr ((hmem' d).mp hd))⟩

/-! ## The whole analysis -/

/-- The constraints that the analysis makes, and the graph with them in it. -/
def constrained (g : FlowGraph) : Except Fault (List InstId × FlowGraph) := do
  let ((_, s), g) ← (do discard Flow.computeLoops; placeConstraints.run {} : Edit (List InstId × Progress)).run g
  return (s.constraints, g)

/-- Not more than 64 constraints lie on each other, so a value is found below each of them. -/
def Shallow (g : FlowGraph) : Prop :=
  ∀ r, constrained g = .ok r → ∀ c ∈ r.1, ∃ d, unwrap r.2 c = .ok d ∧ d ∉ r.1

/-- The ranges of definitions name definitions only. -/
def SymbolsPlaced (g : FlowGraph) : Prop :=
  ∃ ds, g.definitions = .ok ds ∧ ∀ d ∈ ds, ∀ r, g.range d = .ok (some r) → RangeIn (· ∈ ds) r

/-- Every block is visited, and the inputs of instructions stay what they are. -/
theorem threads_inferAll {ctx : Context} {smis : List InstId} (h : Working g₀ pos [] s g)
    (hsmis : ∀ d ∈ smis, Operand g₀ s.constraints d) :
    Threads False g s (inferTree ctx smis (g.blocks.size + 1) [graphEntry]) fun _ s' g' =>
      Underway g₀ pos s.constraints s' g' ∧ Kept g g' := by
  have hsize : g.blocks.size = g₀.blocks.size := by
    have hblocks := congrArg (fun g : FlowGraph => g.blocks.size) h.steady.shell
    simpa [Ranges.shell] using hblocks
  refine (threads_inferTree hu ht _ h hsmis fringe_entry ?_).and_of_ok
    ((tolerant_kept.inferTree _ _).threads (Kept.refl g))
  rw [hsize]
  exact Nat.le_succ_of_le (ncard_ahead_le ht.current.exactDominators)

theorem leads_analyzeRanges {ctx : Context} (hshallow : Shallow g₀) :
    Leads False g₀ (analyzeRanges ctx) fun _ g' => SymbolsPlaced g' := by
  obtain ⟨⟨headers, g₁⟩, hloops, hpost⟩ := Yields.exists_ok (leads_computeLoops_exact ht.current)
  obtain ⟨loops, rfl⟩ : ∃ loops, g₁ = g₀.withLoops loops := by
    obtain ⟨-, loops, -, -, -, heq⟩ := hpost
    exact ⟨_, heq⟩
  obtain ⟨values, s, g₂, hrun, ⟨pos, h₂⟩, hvalues⟩ := (threads_placeConstraints hu ht loops).exists_ok
  have hconstrained : constrained g₀ = .ok (s.constraints, g₂) := by
    unfold constrained
    have hruns : Leads False g₀ (do discard Flow.computeLoops; placeConstraints.run {} : Edit (List InstId × Progress))
        fun r g' => r = (values, s) ∧ g' = g₂ := by
      rw [Leads.bind_iff, Leads.discard_iff, Leads.iff_of_run hloops, Leads.iff_of_run hrun]
      exact ⟨rfl, rfl⟩
    obtain ⟨⟨r, g'⟩, heq, rfl, rfl⟩ := Yields.exists_ok hruns
    exact bind_eq_ok.mpr ⟨_, heq, rfl⟩
  unfold analyzeRanges
  rw [Leads.bind_iff, Leads.discard_iff, Leads.iff_of_run hloops, Leads.bind_iff]
  show Threads False _ {} (analyze ctx) fun _ _ g' => SymbolsPlaced g'
  unfold analyze
  rw [Threads.bind_iff, Threads.iff_of_run hrun, Threads.bind_iff, Threads.get_iff, Threads.bind_iff,
    Threads.getThe_iff, Threads.bind_iff]
  refine (threads_inferAll hu ht h₂ fun d hd => (List.mem_append.mp hd).imp_left (hvalues d)).mono
    fun _ s₃ g₃ ⟨⟨hcs, gone, h₃⟩, hkept⟩ => ?_
  rw [Threads.bind_iff, Threads.get_iff, Threads.bind_iff, Threads.get_iff, Threads.lift_iff]
  refine (leads_removeConstraints_ok hu ht h₃.steady fun c hc => ?_).mono fun _ g₄ ⟨ds, hds, hmem, hsettled⟩ => ?_
  · rw [hcs] at hc ⊢
    obtain ⟨e, he, hnot⟩ := hshallow _ hconstrained c hc
    exact ⟨e, hkept.unwrapWithin he, hnot⟩
  · exact ⟨ds, hds, fun d hd r hr => (hsettled d hd r hr).mono fun e => (hmem e).mpr⟩

end

theorem Undone.constraintFree (hg : Unconstrained g) {gone : List InstId} (h : Undone g g' gone) :
    ConstraintFree g' := by
  intro b i hi n' hn'
  rw [h.insts, List.mem_filter] at hi
  have hbounded := hg.located.bounded i b (hg.located.mem_insts_iff.mp hi.1)
  obtain ⟨n, hn⟩ : ∃ n, g.nodes[i.index]? = some n := ⟨_, Array.getElem?_eq_getElem hbounded⟩
  obtain ⟨m, hm, -, hinst⟩ := h.nodes i n hn (of_decide_eq_true hi.2)
  obtain rfl := Option.some_inj.mp (hn'.symm.trans hm)
  have hop : n'.inst.opcode = n.inst.opcode := by
    obtain hinst | hinst := hinst
    all_goals rw [hinst]
    exact opcode_clearOverflow
  rw [hop]
  exact hg.free b i hi.1 n hn

/-- The analysis comes to its end if constraints do not lie on each other too deeply. When it does, every block has the
instructions that it had, but for bounds checks that are gone. All of them have the inputs, the successors and the
environments that they had, no constraint is left, and ranges name definitions. -/
theorem analyzeRanges_transparent {ctx : Context} (hg : Unconstrained g) :
    (Tractable g → Shallow g → ∃ r, (analyzeRanges ctx).run g = .ok r) ∧
      ∀ changed g', (analyzeRanges ctx).run g = .ok (changed, g') →
        (∃ gone, Undone g g' gone) ∧ ConstraintFree g' ∧ (Tractable g → Shallow g → SymbolsPlaced g') := by
  refine ⟨fun ht hshallow => ?_, fun changed g' hrun => ?_⟩
  · obtain ⟨r, hrun, -⟩ := Yields.exists_ok (leads_analyzeRanges hg ht hshallow)
    exact ⟨r, hrun⟩
  · obtain ⟨gone, hundone⟩ := undone_analyzeRanges hg hrun
    exact ⟨⟨gone, hundone⟩, hundone.constraintFree hg, fun ht hshallow =>
      (leads_analyzeRanges hg ht hshallow).post_of_ok hrun⟩

instance : Decidable (Shallow g) :=
  match h : constrained g with
  | .error e => isTrue fun r hr => by rw [h] at hr; cases hr
  | .ok r => decidable_of_iff (∀ c ∈ r.1, ∃ d ∈ (unwrap r.2 c).toOption, d ∉ r.1) <| by
    unfold Shallow
    simp [h, toOption_eq_some_iff]

/-- A parameter that is checked to be a small integer, and an access to an array of two elements. -/
def checkedAccess : Build Unit := do
  discard <| Build.inst (.unary .checkSmi (← Build.loadLocal 0))
  let first ← Build.loadLocal 0
  let second ← Build.loadLocal 0
  let array ← Build.createArray [first, second]
  let index ← Build.smi 1
  discard <| Build.inst (.checkArrayBound .array array index)
  discard <| Build.returnValue (← Build.loadLocal 0)

def constructed (code : Build Unit) : Option FlowGraph := do
  let (_, raw) ← (code.run (FlowGraph.new "f" 1 0)).toOption
  let (_, g) ← (Ssa.construct.run raw).toOption
  return g

/-- The constraint behind the check of the parameter comes and goes, and the bounds check goes for good. -/
theorem checkedAccess_transparent : ∃ g g' changed, Unconstrained g ∧ Tractable g ∧ Shallow g ∧
    (analyzeRanges {}).run g = .ok (changed, g') ∧
    (g'.insts normalEntry).length + 1 = (g.insts normalEntry).length ∧
    (∃ gone, Undone g g' gone) ∧ ConstraintFree g' ∧ SymbolsPlaced g' := by
  have hcompute : (constructed checkedAccess).map (fun g => decide (Unconstrained g ∧ Tractable g ∧ Shallow g) &&
      (((analyzeRanges {}).run g).toOption.map fun r =>
        decide ((r.2.insts normalEntry).length + 1 = (g.insts normalEntry).length)).getD false) = some true := by
    decide +kernel
  obtain ⟨g, -, hseen⟩ := Option.map_eq_some_iff.mp hcompute
  rw [Bool.and_eq_true, decide_eq_true_eq] at hseen
  obtain ⟨⟨hg, ht, hshallow⟩, hseen⟩ := hseen
  obtain ⟨⟨changed, g'⟩, hrun⟩ := (analyzeRanges_transparent hg).1 ht hshallow
  obtain ⟨hundone, hfree, hplaced⟩ := (analyzeRanges_transparent hg).2 changed g' hrun
  rw [toOption_eq_some_iff.mpr hrun] at hseen
  exact ⟨g, g', changed, hg, ht, hshallow, hrun, by simpa using hseen, hundone, hfree, hplaced ht hshallow⟩

/-! ## Constraints that lie too deep -/

/-- The first of the constraints lies on the second, and so on, and the last one lies on `d`. -/
def Tower (g : FlowGraph) (d : InstId) : List InstId → Prop
  | [] => True
  | c :: cs => g.inputAt ⟨c, 0⟩ = some (cs.headD d) ∧ Tower g d cs

namespace Tower

theorem congr (h : Tower g d cs) (hsame : ∀ c ∈ cs, g'.inputAt ⟨c, 0⟩ = g.inputAt ⟨c, 0⟩) : Tower g' d cs := by
  induction cs with
  | nil => trivial
  | cons c cs ih =>
    exact ⟨(hsame c List.mem_cons_self).trans h.1, ih h.2 fun x hx => hsame x (List.mem_cons_of_mem _ hx)⟩

theorem input_mem (h : Tower g d cs) (hc : c ∈ cs) (he : g.inputAt ⟨c, 0⟩ = some e) : e ∈ cs.tail ∨ e = d := by
  induction cs with
  | nil => cases hc
  | cons x cs ih =>
    obtain rfl | hc := List.mem_cons.mp hc
    · obtain rfl := Option.some_inj.mp (he.symm.trans h.1)
      cases cs with
      | nil => exact .inr rfl
      | cons y cs => exact .inl List.mem_cons_self
    · exact (ih h.2 hc).imp_left List.mem_of_mem_tail

/-- As many constraints as there are in front of `c` lead to it. -/
theorem unwrapWithin {front back : List InstId} (h : Tower g d (front ++ c :: back))
    (hfront : ∀ x ∈ front, ∃ n r a rest, g.nodes[x.index]? = some n ∧ n.inst = .constraint r (a :: rest)) :
    unwrapWithin g front.length ((front ++ c :: back).headD d) = .ok c := by
  induction front with
  | nil => rfl
  | cons x front ih =>
    obtain ⟨n, r, a, rest, hn, hinst⟩ := hfront x List.mem_cons_self
    obtain ⟨hx, h⟩ := h
    have ha : a = (front ++ c :: back).headD d := by
      rw [inputAt_of_node hn rfl, hinst] at hx
      exact Option.some_inj.mp hx
    refine bind_eq_ok.mpr ⟨_, inst_eq_ok.mpr ⟨n, hn, hinst⟩, ?_⟩
    refine bind_eq_ok.mpr ⟨a, rfl, ?_⟩
    rw [ha]
    exact ih h fun y hy => hfront y (List.mem_cons_of_mem _ hy)

end Tower

section

variable (ht : Tractable g₀)

include ht

/-- Checks of one value that follow each other lead to constraints that lie on each other. -/
theorem threads_tower (hu : Unconstrained g₀) {x : BlockId} {is back : List InstId} (hx : g₀.Reachable x)
    (hinsts : g₀.insts x = is ++ back) (hd : Offers g₀ d)
    (hvalue : ∀ n, g₀.nodes[d.index]? = some n → n.inst.constant? = none)
    (h : Steady g₀ .after [] [] [] [] g) (hinputs : ∀ i ∈ g₀.insts x, g.inputAt ⟨i, 0⟩ = some d) :
    Threads False g {} (is.forM fun i => do constrain (← (← getThe FlowGraph).arg i 0) .unknown (.after i) none)
      fun _ s' g' => (∃ pos, Working g₀ pos [] s' g') ∧ Tower g' d s'.constraints.reverse ∧
        s'.constraints.length = is.length ∧ ∀ i ∈ back, g'.inputAt ⟨i, 0⟩ = some (s'.constraints.reverse.headD d) := by
  have hstart : Working g₀ .after [] {} g := ⟨h, fun _ hl => by cases hl⟩
  refine (Threads.forM (fun done s g => (∃ pos, Working g₀ pos [] s g) ∧ Tower g d s.constraints.reverse ∧
    s.constraints.length = done.length ∧ ∀ rest, is = done ++ rest → ∀ i ∈ rest ++ back,
      g.inputAt ⟨i, 0⟩ = some (s.constraints.reverse.headD d)) ⟨⟨_, hstart⟩, ?_, rfl, fun rest hsplit i hi => ?_⟩
    ?_).mono fun _ s g h => ⟨h.1, h.2.1, h.2.2.1, h.2.2.2 [] (List.append_nil _).symm⟩
  · trivial
  · refine hinputs i ?_
    rw [hinsts, hsplit]
    exact hi
  rintro done i rest s g hsplit ⟨⟨pos, h⟩, htower, hlength, hnames⟩
  have hsplit' : g₀.insts x = done ++ i :: (rest ++ back) := by rw [hinsts, hsplit]; simp
  have hi : i ∈ g₀.insts x := by simp [hsplit']
  have hinput := hnames (i :: rest) hsplit i List.mem_cons_self
  obtain ⟨n₀, hn₀, -⟩ := ht.node_of_mem hi
  obtain ⟨n, hn, -⟩ := h.steady.kept i n₀ hn₀
  have harg : n.inst.args[0]? = some (s.constraints.reverse.headD d) := (inputAt_of_node hn rfl).symm.trans hinput
  generalize htop : s.constraints.reverse.headD d = top at harg hinput hnames
  have htopmem : top ∈ s.constraints ∨ top = d ∧ s.constraints = [] := by
    cases hcs : s.constraints.reverse with
    | nil => exact .inr ⟨by rw [← htop, hcs]; rfl, List.reverse_eq_nil_iff.mp hcs⟩
    | cons c cs =>
      rw [hcs] at htop
      exact .inl (List.mem_reverse.mp (hcs ▸ htop ▸ List.mem_cons_self))
  have hoperand : Operand g₀ s.constraints top := by
    obtain hmem | ⟨rfl, -⟩ := htopmem
    · exact .inr hmem
    · exact .inl hd
  have hnone : g.constantOf top = .ok none := by
    obtain hmem | ⟨rfl, -⟩ := htopmem
    · obtain ⟨m, r, a, args, hm, hinst, -⟩ := h.steady.made top hmem
      exact bind_eq_ok.mpr ⟨_, inst_eq_ok.mpr ⟨m, hm, hinst⟩, rfl⟩
    · obtain ⟨m, m₀, hm, hm₀, hshape, -⟩ := h.steady.node_of_offer hu hd
      refine bind_eq_ok.mpr ⟨_, inst_eq_ok.mpr ⟨m, hm, rfl⟩, ?_⟩
      rw [constant?_of_shape hshape, hvalue m₀ hm₀]
      rfl
  rw [Threads.bind_iff, Threads.getThe_iff, Threads.bind_iff, Threads.read_iff, arg_eq_ok.mpr ⟨n, hn, harg⟩,
    Yields.ok_iff]
  refine (threads_constrain hu ht h hoperand rangeIn_unknown (p := .after i) ⟨x, hx, hi⟩ (fun hmem =>
    rank_after_lt hu.located (h.steady.behind top hmem i 0 x hx hi hinput)) fun _ heq => by cases heq).mono ?_
  rintro _ s' g' ⟨pos', new, h', hadvanced, -, hmade⟩
  obtain ⟨c, rfl, htakes⟩ := hmade hnone
  have hcs : s'.constraints.reverse = c :: s.constraints.reverse := by simp [hadvanced.constraints]
  refine ⟨⟨pos', h'⟩, ?_, by simp [hadvanced.constraints, hlength], fun rest' hrest j hj => ?_⟩
  · rw [hcs]
    refine ⟨htop ▸ htakes.value, htower.congr fun e he => ?_⟩
    have he' := List.mem_reverse.mp he
    obtain ⟨m, -, -, -, hm, -⟩ := h.steady.made e he'
    refine (hadvanced.inputs _ (Array.getElem?_eq_some_iff.mp hm).1).resolve_right fun hrenamed => ?_
    -- no constraint lies on the one that is on top
    have hnodup : s.constraints.reverse.Nodup := List.nodup_reverse.mpr h.steady.once
    obtain hmem | ⟨-, hnil⟩ := htopmem
    · obtain htail | rfl := htower.input_mem he hrenamed.1
      · cases hrev : s.constraints.reverse with
        | nil => rw [hrev] at he; cases he
        | cons y ys =>
          rw [hrev] at htop hnodup htail
          obtain rfl : y = top := htop
          exact (List.nodup_cons.mp hnodup).1 htail
      · exact h.steady.not_mem_of_offer hu hd hmem
    · rw [hnil] at he'
      cases he'
  · obtain rfl : rest = rest' := by simpa using hsplit.symm.trans hrest
    rw [hcs]
    have hjx : j ∈ g₀.insts x := by rw [hsplit']; simp [hj]
    exact htakes.behind ⟨j, 0⟩ x hx hjx (.behind hx hsplit' hj) (hnames (i :: rest) hsplit j (by simp [hj]))

/-- Without branches and bounds checks, nothing comes of the uses of a value. -/
theorem threads_constrainUses_idle (hplain : ∀ n ∈ g₀.nodes.toList, n.inst.opcode ∉ [Opcode.branch, .checkArrayBound])
    (h : Working g₀ pos [] s g) : Threads True g s (constrainUses d) fun _ s' g' => s' = s ∧ g' = g := by
  unfold constrainUses
  rw [Threads.bind_iff, Threads.getThe_iff, Threads.bind_iff, Threads.read_iff]
  refine Yields.of_ok fun us hus => ?_
  refine Threads.forM_of_forall (fun s₁ g₁ => s₁ = s ∧ g₁ = g) ⟨rfl, rfl⟩ ?_
  rintro u hu' _ _ ⟨rfl, rfl⟩
  obtain ⟨m, hm, rfl⟩ := inputUses_eq_ok.mp hus
  obtain ⟨-, hmem⟩ := h.steady.lists d m.inputUses (by unfold inputUses?; rw [hm]; rfl)
  rw [Threads.bind_iff, Threads.getThe_iff, Threads.bind_iff, Threads.read_iff]
  refine Yields.of_ok fun home _ => ?_
  split
  · exact ⟨rfl, rfl⟩
  rw [Threads.bind_iff, Threads.read_iff]
  refine Yields.of_ok fun arg _ => ?_
  split
  · exact ⟨rfl, rfl⟩
  rw [Threads.bind_iff, Threads.read_iff]
  refine Yields.of_ok fun op hop => ?_
  have hnot : op ∉ [Opcode.branch, .checkArrayBound] := by
    obtain ⟨n, hn, rfl⟩ := opcode_eq_ok.mp hop
    obtain ⟨hdiscovered, -⟩ | hplaced := ((hmem u).mp hu').1
    · obtain ⟨b, n₀, -, hn₀, -⟩ := ht.exists_home hdiscovered
      obtain ⟨n', hn', hshape, -⟩ := h.steady.kept _ _ hn₀
      obtain rfl := Option.some_inj.mp (hn.symm.trans hn')
      rw [opcode_of_shape hshape]
      exact hplain n₀ (Array.mem_toList_iff.mpr (Array.mem_of_getElem? hn₀))
    · obtain ⟨n', r, a, rest, hn', hinst, -⟩ := h.steady.made _ hplaced
      obtain rfl := Option.some_inj.mp (hn.symm.trans hn')
      rw [hinst]
      simp [Inst.opcode]
  split
  · exact absurd (List.mem_cons_self) hnot
  · exact absurd (by simp) hnot
  · exact ⟨rfl, rfl⟩

theorem threads_constrainFurther_idle
    (hplain : ∀ n ∈ g₀.nodes.toList, n.inst.opcode ∉ [Opcode.branch, .checkArrayBound]) (h : Working g₀ pos [] s g)
    (steps k : Nat) : Threads True g s (constrainFurther steps k) fun _ s' g' => s' = s ∧ g' = g := by
  induction steps generalizing k with
  | zero => exact trivial
  | succ steps ih =>
    unfold constrainFurther
    rw [Threads.bind_iff, Threads.get_iff]
    split
    · exact ⟨rfl, rfl⟩
    · rw [Threads.bind_iff]
      refine (threads_constrainUses_idle ht hplain h).mono ?_
      rintro _ _ _ ⟨rfl, rfl⟩
      exact ih (k + 1)

end

/-- Something uses the instruction. -/
def InUse (i : InstId) (g : FlowGraph) : Prop := ∃ n, g.nodes[i.index]? = some n ∧ n.inputUses ≠ []

theorem InUse.replaceUses (h : InUse c g) (hne : c ≠ d) : Leads True g (Edit.replaceUses d e) fun _ g' =>
    InUse c g' ∧ g'.nodes.size = g.nodes.size := by
  refine Leads.replaceUses_of_ok.mono ?_
  rintro _ _ (⟨-, rfl⟩ | ⟨m, -, rfl⟩)
  · exact ⟨h, rfl⟩
  · obtain ⟨n, hn, huses⟩ := h
    refine ⟨⟨_, by rw [maps_redirected, hn, Option.map_some], ?_⟩, by simp [FlowGraph.redirected]⟩
    unfold Node.takeOver
    dsimp only
    rw [if_neg hne]
    split
    · simp [Node.redirectEnv, Node.redirectInputs, huses]
    · exact huses

/-- If what is found below a constraint in use is a constraint that has to go, it goes too early. -/
theorem leads_removeConstraints_stuck (hcs : cs = e :: gone ++ [c]) (hne : c ∉ e :: gone) (hroot : unwrap g c = .ok e)
    (he : e.index < g.nodes.size) (huse : InUse c g) :
    Leads True g (removeConstraints cs loads) fun _ _ => False := by
  have hread : (fun c => (do return (c, ← unwrap g c) : Edit (InstId × InstId))) =
      fun c => (liftM (do return (c, ← unwrap g c) : Except Fault (InstId × InstId)) : Edit _) := by
    funext c
    simp
  unfold removeConstraints
  rw [Leads.bind_iff, Leads.get_iff, Leads.bind_iff, hread, Leads.mapM_lift_iff, hcs, List.mapM_append]
  refine Yields.of_ok fun unwrapped hunwrapped => ?_
  obtain ⟨front, hfront, hunwrapped⟩ := bind_eq_ok.mp hunwrapped
  simp only [List.mapM_cons, List.mapM_nil, hroot, bind_eq_ok, pure_eq_ok] at hunwrapped
  obtain ⟨_, ⟨_, ⟨_, heq, rfl⟩, _, rfl, rfl⟩, rfl⟩ := hunwrapped
  obtain rfl := Except.ok.inj heq
  rw [List.forM_eq_forM, List.forM_append, Leads.bind_iff, Leads.bind_iff]
  refine (Leads.forM_of_forall (fun g₁ => InUse c g₁ ∧ g₁.nodes.size = g.nodes.size) ⟨huse, rfl⟩
    fun x hx g₁ ⟨huse₁, hsize⟩ => ?_).mono fun _ g₁ ⟨⟨n, hn, huses⟩, hsize⟩ => ?_
  · obtain ⟨y, hy, hx⟩ := forall₂_mem_right (mapM_eq_ok.mp hfront) hx
    obtain ⟨z, -, hx⟩ := bind_eq_ok.mp hx
    obtain rfl := Except.ok.inj hx
    refine (huse₁.replaceUses ?_).mono fun _ g₂ h₂ => ⟨h₂.1, h₂.2.trans hsize⟩
    rintro rfl
    exact hne hy
  have hce : c ≠ e := fun heq => hne (heq ▸ List.mem_cons_self)
  rw [List.forM_cons, Leads.bind_iff]
  refine Leads.replaceUses_of_ok.mono ?_
  rintro _ _ (⟨heq, -⟩ | ⟨m, hm, rfl⟩)
  · exact absurd heq hce
  obtain rfl := Option.some_inj.mp (hn.symm.trans hm)
  obtain ⟨k, hk⟩ : ∃ k, g₁.nodes[e.index]? = some k := ⟨_, Array.getElem?_eq_getElem (hsize ▸ he)⟩
  obtain ⟨k', hk', hbusy⟩ : InUse e (g₁.redirected c e n.inputUses n.envUses) := by
    refine ⟨_, by rw [maps_redirected, hk, Option.map_some], ?_⟩
    unfold Node.takeOver
    dsimp only
    rw [if_neg (Ne.symm hce), if_pos rfl]
    exact fun hnil => huses (List.append_eq_nil_iff.mp hnil).2
  rw [List.forM_nil, Leads.pure_iff, Leads.bind_iff, List.cons_append, List.forM_eq_forM, List.forM_cons,
    Leads.bind_iff]
  exact (Leads.remove hk' fun h => absurd trivial h).mono fun _ g₂ ⟨hnil, _⟩ => absurd hnil hbusy

/-- The graph when constraints are about to be made. -/
def cleared (g : FlowGraph) : Except Fault FlowGraph := do
  let (_, g) ← (do discard Flow.computeLoops; clearRanges : Edit Unit).run g
  return g

/-- If a block checks one value 65 times and uses it once more, and does nothing else with it, the analysis takes out a
constraint that is still in use. -/
theorem leads_analyzeRanges_stuck {ctx : Context} (hu : Unconstrained g₀) (ht : Tractable g₀) {x : BlockId}
    {is : List InstId} {last : InstId}
    (hplain : ∀ n ∈ g₀.nodes.toList, n.inst.opcode ∉ [Opcode.branch, .checkArrayBound]) (hx : g₀.Reachable x)
    (hd : Offers g₀ d) (hvalue : ∀ n, g₀.nodes[d.index]? = some n → n.inst.constant? = none)
    (hinsts : g₀.insts x = is ++ [last]) (hlength : is.length = 65)
    (hcleared : ∀ g, cleared g₀ = .ok g → g.reversePostorder.mapM (checksIn g) = .ok [[], is] ∧
      g.reversePostorder.mapM (valuesIn g) = .ok [[], []] ∧ ∀ i ∈ g₀.insts x, g.inputAt ⟨i, 0⟩ = some d) :
    Leads True g₀ (analyzeRanges ctx) fun _ _ => False := by
  obtain ⟨⟨headers, g₁⟩, hloops, hpost⟩ := Yields.exists_ok (leads_computeLoops_exact ht.current)
  obtain ⟨loops, rfl⟩ : ∃ loops, g₁ = g₀.withLoops loops := by
    obtain ⟨-, loops, -, -, -, heq⟩ := hpost
    exact ⟨_, heq⟩
  have hclears : Leads False (g₀.withLoops loops) clearRanges fun _ g => Steady g₀ .after [] [] [] [] g :=
    leads_clearRanges hu ht loops
  obtain ⟨⟨_, g₁⟩, hclear, h₁⟩ := Yields.exists_ok hclears
  obtain ⟨hchecks, hvalues, hinputs⟩ := hcleared g₁ <| by
    have hruns : Leads False g₀ (do discard Flow.computeLoops; clearRanges : Edit Unit) fun _ g => g = g₁ := by
      rw [Leads.bind_iff, Leads.discard_iff, Leads.iff_of_run hloops, Leads.iff_of_run hclear]
    obtain ⟨⟨_, g⟩, hrun, rfl⟩ := Yields.exists_ok hruns
    exact bind_eq_ok.mpr ⟨_, hrun, rfl⟩
  obtain ⟨_, s₂, g₂, htowers, ⟨pos, h₂⟩, htower, hcount, huses⟩ :=
    (threads_tower ht hu hx hinsts hd hvalue h₁ hinputs).exists_ok
  unfold analyzeRanges
  rw [Leads.bind_iff, Leads.discard_iff, Leads.iff_of_run hloops, Leads.bind_iff]
  show Threads True _ {} (analyze ctx) fun _ _ _ => False
  unfold analyze placeConstraints insertConstraints
  rw [Threads.bind_iff, Threads.bind_iff, Threads.lift_iff, Leads.iff_of_run hclear, Threads.bind_iff,
    Threads.getThe_iff, Threads.bind_iff, Threads.mapM_read_iff, hchecks, Yields.ok_iff, Threads.bind_iff,
    Threads.mapM_read_iff, hvalues, Yields.ok_iff, Threads.bind_iff, Threads.bind_iff]
  simp only [List.flatten_cons, List.flatten_nil, List.nil_append, List.append_nil]
  rw [Threads.iff_of_run htowers, Threads.bind_iff, List.forM_eq_forM, List.forM_nil, Threads.pure_iff,
    Threads.bind_iff, Threads.getThe_iff]
  refine (threads_constrainFurther_idle ht hplain h₂ _ _).mono ?_
  rintro _ s₂ g₂ ⟨rfl, rfl⟩
  rw [Threads.pure_iff, Threads.bind_iff, Threads.get_iff, Threads.bind_iff, Threads.getThe_iff, Threads.bind_iff]
  obtain ⟨_, s₃, g₃, hinfer, ⟨hcs, gone, h₃⟩, hkept⟩ := (threads_inferAll hu ht h₂ fun d hd => .inr hd).exists_ok
  rw [List.nil_append, Threads.iff_of_run hinfer, Threads.bind_iff, Threads.get_iff, Threads.bind_iff, Threads.get_iff,
    Threads.lift_iff]
  rw [← hcs] at htower hcount huses
  -- 64 steps lead from the last constraint to the first
  obtain ⟨e, mid, c, hconstraints, hmid⟩ : ∃ e mid c, s₃.constraints = e :: mid ++ [c] ∧ mid.length = 63 := by
    rw [hlength] at hcount
    obtain ⟨e, behind, heq⟩ := List.exists_cons_of_length_eq_add_one hcount
    rw [heq, List.length_cons] at hcount
    obtain rfl | ⟨mid, c, rfl⟩ := List.eq_nil_or_concat behind
    · cases hcount
    · exact ⟨e, mid, c, by rw [heq, List.concat_eq_append, List.cons_append], by simpa using hcount⟩
  have hreverse : s₃.constraints.reverse = (c :: mid.reverse) ++ e :: [] := by simp [hconstraints]
  have hroot : unwrap g₃ c = .ok e := by
    rw [hreverse] at htower
    have hsteps := htower.unwrapWithin fun y hy => ?_
    · rw [List.length_cons, List.length_reverse, hmid] at hsteps
      exact hkept.unwrapWithin hsteps
    · have hy' : y ∈ s₂.constraints := by
        rw [← hcs, ← List.mem_reverse, hreverse]
        exact List.mem_append_left _ hy
      obtain ⟨n, r, a, rest, hn, hinst, -⟩ := h₂.steady.made y hy'
      exact ⟨n, r, a, rest, hn, hinst⟩
  refine leads_removeConstraints_stuck hconstraints (fun hmem => ?_) hroot ?_ ?_
  · have honce := h₃.steady.once
    rw [hconstraints] at honce
    exact (List.nodup_append.mp honce).2.2 c hmem c (List.mem_singleton_self c) rfl
  · obtain ⟨n, -, -, -, hn, -⟩ := h₃.steady.made e (by simp [hconstraints])
    exact (Array.getElem?_eq_some_iff.mp hn).1
  · obtain ⟨n, -, -, -, hn, -⟩ := h₃.steady.made c (by simp [hconstraints])
    obtain ⟨-, hmem⟩ := h₃.steady.lists c n.inputUses (by unfold inputUses?; rw [hn]; rfl)
    have hlast : last ∈ g₀.insts x := by simp [hinsts]
    have hinput : g₃.inputAt ⟨last, 0⟩ = some c := by
      refine hkept.inputAt ?_
      rw [huses last List.mem_cons_self, hreverse]
      rfl
    have hstays : last ∉ gone := fun hgone => by
      obtain ⟨n₀, hn₀, hcheck⟩ := h₃.steady.checks last hgone
      exact hplain n₀ (Array.mem_toList_iff.mpr (Array.mem_of_getElem? hn₀)) (by simp [hcheck])
    have huse : (⟨last, 0⟩ : Use) ∈ n.inputUses := (hmem _).mpr ⟨.inl ⟨ht.discovered hx hlast, hstays⟩, hinput⟩
    exact ⟨n, hn, List.ne_nil_of_mem huse⟩

/-- A parameter that is checked to be a small integer that many times, and returned. -/
def checkedTimes (times : Nat) : FlowGraph where
  name := "f"
  parameterCount := 1
  localCount := 0
  nextSsaIndex := 1
  blocks := #[
    { kind := .graphEntry, preorderNumber := some 0, postorderNumber := some 1, dominated := [normalEntry] },
    { kind := .target, preds := [graphEntry], preorderNumber := some 1, postorderNumber := some 0,
      dominator := some graphEntry }]
  nodes := #[
    { inst := .parameter 0, block := some graphEntry, ssaIndex := some 0,
      inputUses := (List.range' 1 (times + 1)).map fun i => ⟨⟨i⟩, 0⟩ }] ++
    Array.replicate times { inst := .unary .checkSmi ⟨0⟩, block := some normalEntry } ++
    #[{ inst := .unary .ret ⟨0⟩, block := some normalEntry }]
  layout :=
    { lists := ⟨#[none, some ((List.range' 1 (times + 1)).map InstId.mk)]⟩,
      homes := ⟨#[none] ++ Array.replicate (times + 1) (some normalEntry)⟩ }
  initialDefinitions := [⟨0⟩]
  preorder := [graphEntry, normalEntry]
  postorder := [normalEntry, graphEntry]

theorem checkedTimes_faults : Unconstrained (checkedTimes 65) ∧ Tractable (checkedTimes 65) ∧
    ¬ ∃ r, (analyzeRanges {}).run (checkedTimes 65) = .ok r := by
  obtain ⟨hu, ht⟩ : Unconstrained (checkedTimes 65) ∧ Tractable (checkedTimes 65) := by decide +kernel
  have hplain : ∀ n ∈ (checkedTimes 65).nodes.toList, n.inst.opcode ∉ [Opcode.branch, .checkArrayBound] := by
    decide +kernel
  have hreach : (checkedTimes 65).Reachable normalEntry := (mem_order_iff ht.current).mp (by decide +kernel)
  have hoffer : Offers (checkedTimes 65) ⟨0⟩ := .inl (by decide +kernel)
  have hvalue : ∀ n ∈ (checkedTimes 65).nodes[0]?, n.inst.constant? = none := by decide +kernel
  have hinsts : (checkedTimes 65).insts normalEntry = (List.range' 1 65).map InstId.mk ++ [⟨66⟩] := by decide +kernel
  have hseen : (cleared (checkedTimes 65)).toOption.all fun g =>
      (g.reversePostorder.mapM (checksIn g)).toOption = some [[], (List.range' 1 65).map InstId.mk] ∧
        (g.reversePostorder.mapM (valuesIn g)).toOption = some [[], []] ∧
        ∀ i ∈ (checkedTimes 65).insts normalEntry, g.inputAt ⟨i, 0⟩ = some ⟨0⟩ := by
    decide +kernel
  have hlength : ((List.range' 1 65).map InstId.mk).length = 65 := by rw [List.length_map, List.length_range']
  refine ⟨hu, ht, fun ⟨r, hrun⟩ => ?_⟩
  generalize checkedTimes 65 = g₀ at *
  refine (leads_analyzeRanges_stuck hu ht hplain hreach hoffer hvalue hinsts hlength fun g hg => ?_).post_of_ok hrun
  rw [toOption_eq_some_iff.mpr hg, Option.all_some, decide_eq_true_eq] at hseen
  exact ⟨toOption_eq_some_iff.mp hseen.1, toOption_eq_some_iff.mp hseen.2.1, hseen.2.2⟩

end Midend.Ranges

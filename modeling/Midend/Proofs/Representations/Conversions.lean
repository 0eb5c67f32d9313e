import Midend.Proofs.Representations.Growth

/-! # Conversions

A conversion is a new instruction in front of an old one. What it reads is in the representation that it expects, and
whatever it is for reads it in the representation that it gives.
-/

namespace Midend.Representations

open FlowGraph Execution Ssa

variable {g g' g'' : FlowGraph} {old : Nat} {b p : BlockId} {d e c i before v x : InstId} {n m : Node} {u : Use}
    {new : Inst}

/-! ## One more instruction -/

/-- The graph `g'` has one more instruction than `g`, and all others as they were. -/
structure Adds (g : FlowGraph) (new : Inst) (g' : FlowGraph) : Prop where
  size : g'.nodes.size = g.nodes.size + 1
  added : ∃ n, g'.nodes[g.nextId.index]? = some n ∧ n.inst = new ∧ n.inputUses = []
  old : ∀ (i : InstId) n, g.nodes[i.index]? = some n → ∃ n', g'.nodes[i.index]? = some n' ∧ n'.inst = n.inst ∧
    n'.block = n.block ∧ n'.cls = n.cls ∧ n'.inputUses = n.inputUses ++ Edit.usesOf (Edit.usesBy g.nextId new.args) i
  blocks : g'.blocks = g.blocks
  postorder : g'.postorder = g.postorder
  catchEntries : g'.catchEntries = g.catchEntries

namespace Adds

variable (h : Adds g new g')

include h

theorem eq_nextId (hi : g.nodes.size ≤ i.index) (hn : g'.nodes[i.index]? = some n) : i = g.nextId := by
  have hlt : i.index < g.nodes.size + 1 := h.size ▸ (Array.getElem?_eq_some_iff.mp hn).1
  exact InstId.index_inj.mp (Nat.le_antisymm (Nat.le_of_lt_succ hlt) hi)

theorem grows (hbounded : ∀ b, ∀ i ∈ g.insts b, i.index < g.nodes.size)
    (hlayout : g'.layout = g.layout ∨ ∃ b, e ∈ g.insts b ∧
      g'.layout = g.layout.place g.nextId b (Layout.putBefore e g.nextId (g.layout.insts b)))
    (hinitial : ∃ cs, g'.initialDefinitions = g.initialDefinitions ++ cs ∧ ∀ c ∈ cs, c = g.nextId) : Grows g g' where
  nodes i n hn := by
    obtain ⟨n', hn', hinst, hblock, hcls, -⟩ := h.old i n hn
    exact ⟨n', hn', ⟨fun _ d => d, by rw [hinst, Inst.mapArgs_id]⟩, hblock, hcls⟩
  blocks := h.blocks
  postorder := h.postorder
  catchEntries := h.catchEntries
  home i hi := by
    obtain heq | ⟨b, -, heq⟩ := hlayout
    · rw [heq]
    · rw [heq, Layout.home?_place, if_neg]
      rintro rfl
      exact Nat.lt_irrefl _ hi
  insts b := by
    have hold : (g.insts b).filter (·.index < g.nodes.size) = g.insts b :=
      List.filter_eq_self.mpr fun i hi => decide_eq_true (hbounded b i hi)
    unfold FlowGraph.insts at *
    obtain heq | ⟨c, -, heq⟩ := hlayout
    · rw [heq, hold]
    · rw [heq, Layout.insts_place]
      split
      case isTrue hb => rw [Layout.filter_putBefore (by simp [nextId]), ← hb, hold]
      case isFalse => exact hold
  last b := by
    unfold FlowGraph.lastInst Layout.last?
    obtain heq | ⟨c, hc, heq⟩ := hlayout
    · rw [heq]
    · rw [heq, Layout.insts_place]
      split
      case isTrue hb => rw [hb]; exact Layout.getLast?_putBefore hc
      case isFalse => rfl
  initial := by
    obtain ⟨cs, hcs, hnew⟩ := hinitial
    exact ⟨cs, hcs, fun c hc => by rw [hnew c hc]; exact Nat.le_refl _⟩

theorem advances (hgrows : Grows g g') (hreads : ∀ k d, new.args[k]? = some d →
    ∃ m, g.nodes[d.index]? = some m ∧ m.inst.representation = new.requiredRepresentation k) : Advances g g' where
  toGrows := hgrows
  uses d n n' hn hn' u hu := by
    obtain ⟨m', hm', hinst, -, -, huses⟩ := h.old d n hn
    obtain rfl := Option.some_inj.mp (hn'.symm.trans hm')
    rw [huses, List.mem_append, Edit.mem_usesOf, Edit.mem_usesBy] at hu
    refine hu.imp_right fun ⟨huser, hk⟩ => ?_
    obtain ⟨m, hm, hrep⟩ := hreads _ d hk
    obtain rfl := Option.some_inj.mp (hn.symm.trans hm)
    obtain ⟨l, hl, hnew, -⟩ := h.added
    exact ⟨l, n', by rw [huser, hl], hn', .inl (by rw [hinst, hnew, hrep])⟩
  fresh d hd n hn u hu := by
    obtain rfl := h.eq_nextId hd hn
    obtain ⟨l, hl, -, huses⟩ := h.added
    obtain rfl := Option.some_inj.mp (hn.symm.trans hl)
    rw [huses] at hu
    cases hu

theorem linked (hg : Linked g) (hgrows : Grows g g') (hsound : g'.layout.Sound)
    (hbounded : ∀ b, ∀ i ∈ g'.insts b, i.index < g'.nodes.size)
    (hgiven : ∀ d ∈ g'.initialDefinitions, g.nodes.size ≤ d.index → d = g.nextId ∧ new.isGiven = true)
    (hphi : new.opcode ≠ .phi) (hreads : Reader g' g.nextId → ∀ d ∈ new.args, Value g d ∧
      ∃ m, g.nodes[d.index]? = some m ∧ m.inst.isDefinition = true) : Linked g' := by
  obtain ⟨l, hl, hnew, hempty⟩ := h.added
  refine hg.grows hgrows hsound hbounded (fun d hd hge => ?_) (fun i n hge hn => ?_) (fun i hi => ?_) fun d n hd hn u
    hu => ?_
  · obtain ⟨rfl, hgiven⟩ := hgiven d hd hge
    exact ⟨l, hl, by rwa [hnew]⟩
  · obtain rfl := h.eq_nextId hge hn
    obtain rfl := Option.some_inj.mp (hn.symm.trans hl)
    rwa [hnew]
  · obtain hlt | hge := Nat.lt_or_ge i.index g.nodes.size
    · obtain ⟨n, hn, hargs⟩ := hg.inputs i ((hgrows.reader_iff hlt).mp hi)
      obtain ⟨n', hn', hinst, -⟩ := h.old i n hn
      refine ⟨n', hn', fun k d hk => ?_⟩
      obtain ⟨hd, m, hm, hdef, hmem⟩ := hargs k d (hinst ▸ hk)
      obtain ⟨m', hm', hinst', -, -, huses⟩ := h.old d m hm
      exact ⟨hg.value_mono hgrows hd, m', hm', by rwa [hinst'], by rw [huses]; exact List.mem_append_left _ hmem⟩
    · have hlt : i.index < g'.nodes.size := by
        obtain ⟨b, hb, hi | hi⟩ := hi
        · exact hbounded b i hi
        · refine hgrows.lt_size (hg.lt_size_of_phi (hgrows.order_eq ▸ hb) ?_)
          rw [← hgrows.phisOf_eq]
          exact hi.1
      obtain rfl := h.eq_nextId hge (Array.getElem?_eq_getElem hlt)
      refine ⟨l, hl, fun k d hk => ?_⟩
      rw [hnew] at hk
      obtain ⟨hd, m, hm, hdef⟩ := hreads hi d (List.mem_of_getElem? hk)
      obtain ⟨m', hm', hinst', -, -, huses⟩ := h.old d m hm
      refine ⟨hg.value_mono hgrows hd, m', hm', by rwa [hinst'], ?_⟩
      rw [huses, List.mem_append, Edit.mem_usesOf, Edit.mem_usesBy]
      exact .inr ⟨rfl, hk⟩
  · obtain hlt | hge := Nat.lt_or_ge d.index g.nodes.size
    · have hm := Array.getElem?_eq_getElem hlt
      obtain ⟨n', hn', -, -, -, huses⟩ := h.old d _ hm
      obtain rfl := Option.some_inj.mp (hn.symm.trans hn')
      rw [huses, List.mem_append, Edit.mem_usesOf, Edit.mem_usesBy] at hu
      obtain hu | ⟨huser, hk⟩ := hu
      · obtain ⟨hu, hused⟩ := hg.uses d _ ((hgrows.value_iff hlt).mp hd) hm u hu
        refine ⟨hu.grows hgrows, fun k e hk hpoint => ?_⟩
        rw [hgrows.conversionPoint?_eq hu.lt_size] at hpoint
        have hold := Array.getElem?_eq_getElem hu.lt_size
        obtain ⟨k', hk', hinst, -⟩ := h.old _ _ hold
        obtain rfl := Option.some_inj.mp (hk.symm.trans hk')
        rw [hinst]
        exact hused _ e hold hpoint
      · have hl' : g'.nodes[u.user.index]? = some l := by rw [huser, hl]
        refine ⟨⟨l, _, hl', conversionPoint?_of_not_phi hl' (by rwa [hnew]), fun _ => ?_⟩, fun l' _ hl'' _ => ?_⟩
        · rw [hnew]
          exact (List.getElem?_eq_some_iff.mp hk).1
        · obtain rfl := Option.some_inj.mp (hl'.symm.trans hl'')
          rwa [hnew]
    · obtain rfl := h.eq_nextId hge hn
      obtain rfl := Option.some_inj.mp (hn.symm.trans hl)
      rw [hempty] at hu
      cases hu

end Adds

/-- The graph `g'` has everything that `g` has, with all inputs as they were, and its use lists are complete. -/
structure Extends (g g' : FlowGraph) : Prop extends Advances g g' where
  linked : Linked g'
  kept : ∀ (i : InstId) n, g.nodes[i.index]? = some n → ∃ n', g'.nodes[i.index]? = some n' ∧ n'.inst = n.inst

namespace Extends

theorem refl (hg : Linked g) : Extends g g where
  toAdvances := .refl hg
  linked := hg
  kept _ n hn := ⟨n, hn, rfl⟩

theorem trans (h : Extends g g') (h' : Extends g' g'') : Extends g g'' where
  toAdvances := h.toAdvances.trans h'.toAdvances
  linked := h'.linked
  kept i n hn := by
    obtain ⟨n', hn', hinst⟩ := h.kept i n hn
    obtain ⟨n'', hn'', hinst'⟩ := h'.kept i n' hn'
    exact ⟨n'', hn'', hinst'.trans hinst⟩

end Extends

theorem Adds.extended (h : Adds g new g') (hadvances : Advances g g') (hlinked : Linked g') : Extends g g' where
  toAdvances := hadvances
  linked := hlinked
  kept i n hn := by
    obtain ⟨n', hn', hinst, -⟩ := h.old i n hn
    exact ⟨n', hn', hinst⟩

/-! ## New constants -/

theorem adds_withInitial (g : FlowGraph) (constant : Constant) :
    Adds g (.constant constant) (g.withInitial (.constant constant)) where
  size := size_withInst _
  added := ⟨_, by rw [nodes_withInitial, if_pos rfl], rfl, rfl⟩
  old i n hn := ⟨n, nodes_withInitial_of_some hn, rfl, rfl, rfl, by simp [Inst.args, Edit.usesBy, Edit.usesOf]⟩
  blocks := rfl
  postorder := rfl
  catchEntries := rfl

theorem leads_getConstant {constant : Constant} (hg : Linked g) : Leads False g (Edit.getConstant constant) fun d g' =>
    Extends g g' ∧ d ∈ g'.initialDefinitions := by
  refine (Leads.getConstant fun _ d hd => hg.lt_size_of_value (.inl hd)).mono ?_
  rintro d _ (⟨rfl, hd, -⟩ | ⟨rfl, rfl⟩)
  · exact ⟨.refl hg, hd⟩
  have hadds := adds_withInitial g constant
  have hgrows : Grows g (g.withInitial (.constant constant)) :=
    hadds.grows (e := g.nextId) hg.bounded (.inl rfl) ⟨[g.nextId], rfl, by simp⟩
  refine ⟨hadds.extended (hadds.advances hgrows (by simp [Inst.args])) ?_,
    List.mem_append_right _ (List.mem_singleton.mpr rfl)⟩
  refine hadds.linked hg hgrows hg.sound (fun b i hi => ?_) (fun d hd hge => ?_) (by simp [Inst.opcode])
    (by simp [Inst.args])
  · exact hgrows.lt_size (hg.bounded b i hi)
  · obtain hd | hd := List.mem_append.mp hd
    · exact absurd (hg.lt_size_of_value (.inl hd)) (Nat.not_lt.mpr hge)
    · exact ⟨List.mem_singleton.mp hd, rfl⟩

/-! ## Single conversions -/

theorem adds_inserted (g : FlowGraph) (before : InstId) (b : BlockId) (home : Option BlockId) (hnew : n.inst = new)
    (hunused : n.inputUses = []) (hold : g.nextId ∉ new.args) :
    Adds g new (((g.withInst n).inserted g.nextId n before b home).numbered g.nextId) := by
  have hnodes (i : InstId) : (((g.withInst n).inserted g.nextId n before b home).numbered g.nextId).nodes[i.index]? =
      (if i = g.nextId then some n else g.nodes[i.index]?).map fun m =>
        if i = g.nextId then
          { (({ m with block := home } : Node).addUses (Edit.usesBy g.nextId new.args)
          (Edit.usesBy g.nextId n.envValues) i) with
            ssaIndex := some g.nextSsaIndex }
        else m.addUses (Edit.usesBy g.nextId new.args) (Edit.usesBy g.nextId n.envValues) i := by
    show (((g.withInst n).inserted g.nextId n before b home).withNode g.nextId _).nodes[i.index]? = _
    rw [nodes_withNode, inserted, nodes_mapNodes, nodes_withNode, nodes_withLayout, nodes_withInst, Option.map_map,
      Option.map_map, hnew]
    congr 1
    funext m
    by_cases hi : i = g.nextId
    · simp only [Function.comp_apply, if_pos hi]
      rfl
    · simp only [Function.comp_apply, if_neg hi]
  have hnone : Edit.usesOf (Edit.usesBy g.nextId new.args) g.nextId = [] := by
    refine List.eq_nil_iff_forall_not_mem.mpr fun u hu => hold ?_
    rw [Edit.mem_usesOf, Edit.mem_usesBy] at hu
    exact List.mem_of_getElem? hu.2
  refine ⟨by simp [numbered, inserted], ?_, fun i m hm => ?_, ?_, ?_, ?_⟩
  case refine_3 | refine_4 | refine_5 => simp only [numbered, inserted, withNode, mapNodes, withLayout, withInst]
  · have hadded := hnodes g.nextId
    rw [if_pos rfl, Option.map_some, if_pos rfl] at hadded
    refine ⟨_, hadded, hnew, ?_⟩
    show n.inputUses ++ _ = []
    rw [hunused, hnone]
    rfl
  · have hne : i ≠ g.nextId := by
      rintro rfl
      exact Nat.lt_irrefl _ (Array.getElem?_eq_some_iff.mp hm).1
    have hkept := hnodes i
    rw [if_neg hne, hm, Option.map_some, if_neg hne] at hkept
    exact ⟨_, hkept, rfl, rfl, rfl, rfl⟩

theorem leads_place {op : Opcode} (hg : Linked g) (hbefore : before ∈ g.insts b) (hm : g.nodes[v.index]? = some m)
    (hdef : m.inst.isDefinition = true) (hv : b ∈ g.reversePostorder → Value g v)
    (hrep : m.inst.representation = (Inst.unary op v).requiredRepresentation 0) (hop : op ≠ .phi)
    (hnew : n.inst = .unary op v) (hunused : n.inputUses = []) :
    Leads False (g.withInst n) (do
        Edit.insertBefore before g.nextId
        discard <| Edit.allocSsaIndex g.nextId
        return g.nextId) fun c g' => Extends g g' ∧ c = g.nextId ∧
      (∃ n, g'.nodes[c.index]? = some n ∧ n.inst = .unary op v ∧ n.inputUses = []) ∧
      g'.insts b = Layout.putBefore before c (g.insts b) := by
  have hlt := hg.bounded b before hbefore
  have hfree : g.layout.home? g.nextId = none := by
    by_contra hne
    obtain ⟨a, ha⟩ := Option.ne_none_iff_exists'.mp hne
    exact Nat.lt_irrefl _ (hg.bounded a _ (hg.sound.mem_iff.mpr ha))
  have hold : (g.withInst n).nodes[before.index]? = some g.nodes[before.index] := by
    rw [nodes_withInst, if_neg (by rintro rfl; exact Nat.lt_irrefl _ hlt), Array.getElem?_eq_getElem hlt]
  have hnode : (g.withInst n).nodes[g.nextId.index]? = some n := by rw [nodes_withInst, if_pos rfl]
  rw [Leads.bind_iff]
  refine (Leads.insertBefore hnode hfree hold (hg.sound.mem_iff.mp hbefore)).mono ?_
  rintro _ _ rfl
  rw [Leads.bind_iff, Leads.discard_iff, Leads.allocSsaIndex_iff]
  refine ⟨fun _ => ?_, fun h => absurd h (by simp [inserted, nextId])⟩
  have hadds := adds_inserted g before b g.nodes[before.index].block hnew hunused
    (by
      intro h
      obtain rfl := List.mem_singleton.mp h
      exact Nat.lt_irrefl _ (Array.getElem?_eq_some_iff.mp hm).1)
  generalize hg' : ((g.withInst n).inserted g.nextId n before b _).numbered g.nextId = g' at hadds
  have hlayout : g'.layout = g.layout.place g.nextId b (Layout.putBefore before g.nextId (g.layout.insts b)) := by
    simp only [← hg', numbered, inserted, withNode, mapNodes, withLayout, withInst]
  have hinitial : g'.initialDefinitions = g.initialDefinitions := by
    simp only [← hg', numbered, inserted, withNode, mapNodes, withLayout, withInst]
  have hinsts : g'.insts b = Layout.putBefore before g.nextId (g.insts b) := by
    unfold FlowGraph.insts
    rw [hlayout, Layout.insts_place, if_pos rfl]
  have hgrows : Grows g g' :=
    hadds.grows hg.bounded (.inr ⟨b, hbefore, hlayout⟩) ⟨[], by rw [hinitial, List.append_nil], by simp⟩
  have hsound : g'.layout.Sound := by
    rw [hlayout]
    exact hg.sound.place hfree (Layout.putBefore_perm hbefore)
  have hadvances : Advances g g' := hadds.advances hgrows fun k d hk => by
    rw [Inst.args, List.getElem?_singleton, Option.ite_none_right_eq_some, Option.some_inj] at hk
    obtain ⟨rfl, rfl⟩ := hk
    exact ⟨m, hm, hrep⟩
  have hhome {i : InstId} {a : BlockId} (hi : i ∈ g'.insts a) : i = g.nextId ∧ a = b ∨ i ∈ g.insts a := by
    have hi := hsound.mem_iff.mp hi
    rw [hlayout, Layout.home?_place] at hi
    split at hi
    case isTrue heq => exact .inl ⟨heq, (Option.some_inj.mp hi).symm⟩
    case isFalse => exact .inr (hg.sound.mem_iff.mpr hi)
  refine ⟨hadds.extended hadvances (hadds.linked hg hgrows hsound (fun a i hi => ?_) (fun d hd hge => ?_) hop ?_), rfl,
    hadds.added, hinsts⟩
  · obtain ⟨rfl, -⟩ | hi := hhome hi
    · rw [hadds.size]
      exact Nat.lt_succ_self _
    · exact hgrows.lt_size (hg.bounded a i hi)
  · exact absurd (hg.lt_size_of_value (.inl (hinitial ▸ hd))) (Nat.not_lt.mpr hge)
  · rintro ⟨a, ha, hi | hi⟩ d hd
    · rw [hgrows.order_eq] at ha
      obtain rfl := List.mem_singleton.mp hd
      obtain ⟨-, rfl⟩ | hi := hhome hi
      · exact ⟨hv ha, m, hm, hdef⟩
      · exact absurd (hg.bounded a _ hi) (Nat.lt_irrefl _)
    · rw [hgrows.order_eq] at ha
      exact absurd (hg.lt_size_of_phi ha (hgrows.phisOf_eq a ▸ hi.1)) (Nat.lt_irrefl _)

/-! ## Chains of conversions -/

/-- From `d` on there are only instructions that are not old, up to `before`. -/
def InFront (old : Nat) (g : FlowGraph) (b : BlockId) (before d : InstId) : Prop :=
  ∃ front back rest, g.insts b = front ++ d :: (back ++ before :: rest) ∧ ∀ x ∈ d :: back, old ≤ x.index

theorem InFront.grows (hd : InFront old g b before d) (hsize : old ≤ g.nodes.size) (h : Grows g g') :
    InFront old g' b before d := by
  obtain ⟨front, back, rest, hsplit, hnew⟩ := hd
  have hinsts := (h.insts b).trans hsplit
  obtain ⟨pre, tail, heq, -, htail⟩ := List.filter_eq_append_iff.mp hinsts
  obtain ⟨pre', tail', rfl, -, -, htail'⟩ := List.filter_eq_cons_iff.mp htail
  obtain ⟨back', rest', rfl, hback, hrest⟩ := List.filter_eq_append_iff.mp htail'
  obtain ⟨back'', rest'', rfl, hback', -⟩ := List.filter_eq_cons_iff.mp hrest
  refine ⟨pre ++ pre', back' ++ back'', rest'', by rw [heq]; simp, fun x hx => ?_⟩
  -- What stands in between now was there before or is new in `g'`.
  obtain hold | hge := Nat.lt_or_ge x.index g.nodes.size
  · refine hnew x ?_
    obtain rfl | hx := List.mem_cons.mp hx
    · exact List.mem_cons_self
    · refine List.mem_cons_of_mem _ (hback ▸ List.mem_filter.mpr ⟨?_, decide_eq_true hold⟩)
      exact (List.mem_append.mp hx).resolve_right fun hx => hback' x hx (decide_eq_true hold)
  · exact hsize.trans hge

/-- The definition is converted in front of `before`, step by step, from an old one or from a constant. -/
inductive Converts (old : Nat) (g : FlowGraph) (b : BlockId) (before : InstId) : InstId → Prop
  | intro {d : InstId} {n : Node} (hfront : InFront old g b before d) (hn : g.nodes[d.index]? = some n)
      (hargs : ∀ e ∈ n.inst.args, old ≤ e.index → e ∉ g.initialDefinitions → Converts old g b before e) :
      Converts old g b before d

theorem Converts.grows (hd : Converts old g b before d) (hsize : old ≤ g.nodes.size) (h : Grows g g')
    (hkept : ∀ (i : InstId) n, old ≤ i.index → g.nodes[i.index]? = some n →
      ∃ n', g'.nodes[i.index]? = some n' ∧ n'.inst = n.inst) : Converts old g' b before d := by
  induction hd with
  | @intro d n hfront hn _ ih =>
    have hnew : old ≤ d.index := by
      obtain ⟨_, _, _, -, hnew⟩ := hfront
      exact hnew d List.mem_cons_self
    obtain ⟨n', hn', hinst⟩ := hkept d n hnew hn
    refine .intro (hfront.grows hsize h) hn' fun e he hge hnot => ?_
    rw [hinst] at he
    refine ih e he hge fun hinitial => hnot ?_
    obtain ⟨cs, hcs, -⟩ := h.initial
    rw [hcs]
    exact List.mem_append_left _ hinitial

theorem Converts.step {op : Opcode} (hbefore : before ∈ g.insts b) (hsize : old ≤ g.nodes.size)
    (hinsts : g'.insts b = Layout.putBefore before g.nextId (g.insts b))
    (hn : g'.nodes[g.nextId.index]? = some n) (hinst : n.inst = .unary op v)
    (hv : old ≤ v.index → v ∉ g'.initialDefinitions → Converts old g' b before v) :
    Converts old g' b before g.nextId := by
  obtain ⟨front, rest, -, hput⟩ := Layout.putBefore_eq (i := g.nextId) hbefore
  refine .intro ⟨front, [], rest, by rw [hinsts, hput, List.nil_append], ?_⟩ hn fun e he => ?_
  · intro x hx
    obtain rfl := List.mem_singleton.mp hx
    exact hsize
  · rw [hinst] at he
    obtain rfl := List.mem_singleton.mp he
    exact hv

/-- A conversion that is done, in front of `before`, with a result in the given representation. -/
structure Converted (old : Nat) (g : FlowGraph) (b : BlockId) (before : InstId) (target : Representation) (c : InstId)
    (g' : FlowGraph) : Prop extends Extends g g' where
  new : g.nodes.size ≤ c.index
  mem : c ∈ g'.insts b
  node : ∃ n, g'.nodes[c.index]? = some n ∧ n.inst.isDefinition = true ∧ n.inst.representation = target
  chain : Converts old g' b before c

theorem Converted.after {target : Representation} (hext : Extends g g') (h : Converted old g' b before target c g'') :
    Converted old g b before target c g'' :=
  { h with toExtends := hext.trans h.toExtends, new := hext.size_le.trans h.new }

theorem leads_insertStep (op : Opcode) {target : Representation} (hg : Linked g) (hsize : old ≤ g.nodes.size)
    (hbefore : before ∈ g.insts b) (hm : g.nodes[v.index]? = some m) (hdef : m.inst.isDefinition = true)
    (hv : b ∈ g.reversePostorder → Value g v)
    (hchain : old ≤ v.index → v ∉ g.initialDefinitions → Converts old g b before v)
    (hrep : m.inst.representation = (Inst.unary op v).requiredRepresentation 0) (hop : op ≠ .phi)
    (hdefines : op.isDefinition = true) (htarget : (Inst.unary op v).representation = target) :
    Leads False g (insertStep before v op) fun c g' => Converted old g b before target c g' := by
  have hlt := hg.bounded b before hbefore
  have hplace (n : Node) (hnew : n.inst = .unary op v) (hunused : n.inputUses = []) : Leads False (g.withInst n) (do
      Edit.insertBefore before g.nextId
      discard <| Edit.allocSsaIndex g.nextId
      return g.nextId) fun c g' => Converted old g b before target c g' := by
    refine (leads_place hg hbefore hm hdef hv hrep hop hnew hunused).mono ?_
    rintro c g' ⟨hext, rfl, ⟨n, hn, hinst, -⟩, hinsts⟩
    refine ⟨hext, Nat.le_refl _, ?_, ⟨n, hn, by rwa [hinst], by rw [hinst, htarget]⟩, ?_⟩
    · obtain ⟨front, rest, -, hput⟩ := Layout.putBefore_eq (i := g.nextId) hbefore
      rw [hinsts, hput]
      exact List.mem_append_right _ List.mem_cons_self
    · refine .step hbefore hsize hinsts hn hinst fun hge hnot => ?_
      refine (hchain hge fun hinitial => hnot ?_).grows hsize hext.toGrows fun i n _ hn => hext.kept i n hn
      obtain ⟨cs, hcs, -⟩ := hext.initial
      rw [hcs]
      exact List.mem_append_left _ hinitial
  unfold insertStep
  rw [Leads.bind_iff, Leads.addInst_iff, Leads.bind_iff, Leads.get_iff, Leads.bind_iff, Leads.lift_iff,
    inst_eq_ok.mpr ⟨_, by rw [nodes_withInst, if_pos rfl], rfl⟩, Yields.ok_iff, Leads.bind_iff, Leads.lift_iff]
  have hold : (g.withInst { inst := .unary op v }).nodes[before.index]? = some g.nodes[before.index] := by
    rw [nodes_withInst, if_neg (by rintro rfl; exact Nat.lt_irrefl _ hlt), Array.getElem?_eq_getElem hlt]
  rw [env_eq_ok.mpr ⟨_, hold, rfl⟩, Yields.ok_iff]
  refine Leads.ite_iff.mpr ⟨fun _ => ?_, fun _ => hplace _ rfl rfl⟩
  rw [Leads.bind_iff]
  refine (Leads.copyDeoptTarget_new (Array.getElem?_eq_getElem hlt)).mono ?_
  rintro _ _ rfl
  exact hplace _ rfl rfl

theorem Converted.leads_insertStep {op : Opcode} {middle target : Representation}
    (h : Converted old g b before middle c g') (hsize : old ≤ g.nodes.size) (hbefore : before ∈ g.insts b)
    (hlt : before.index < g.nodes.size) (hrep : middle = (Inst.unary op c).requiredRepresentation 0) (hop : op ≠ .phi)
    (hdefines : op.isDefinition = true) (htarget : (Inst.unary op c).representation = target) :
    Leads False g' (insertStep before c op) fun c' g'' => Converted old g b before target c' g'' := by
  obtain ⟨n, hn, hdef, hmiddle⟩ := h.node
  refine (Representations.leads_insertStep op h.linked (hsize.trans h.size_le) ((h.mem_insts_iff hlt).mpr hbefore) hn
    hdef (fun hb => .inr ⟨b, hb, .inl h.mem⟩) (fun _ _ => h.chain) (hmiddle.trans hrep) hop hdefines htarget).mono ?_
  exact fun _ _ h' => h'.after h.toExtends

theorem leads_insertDouble (hg : Linked g) (hsize : old ≤ g.nodes.size) (hbefore : before ∈ g.insts b)
    (hm : g.nodes[d.index]? = some m) (hdef : m.inst.isDefinition = true) (hd : Value g d) (hold : d.index < old)
    (hrep : m.inst.representation = .tagged) :
    Leads False g (insertDouble before d) fun c g' => Converted old g b before .unboxedDouble c g' := by
  have hchain : old ≤ d.index → d ∉ g.initialDefinitions → Converts old g b before d :=
    fun hge => absurd hold (Nat.not_lt.mpr hge)
  unfold insertDouble
  rw [Leads.bind_iff, Leads.get_iff, Leads.bind_iff, Leads.lift_iff]
  have hread : g.smiConstantOf d = .ok (m.inst.constant?.bind Constant.smi?) := by
    unfold smiConstantOf constantOf
    rw [inst_eq_ok.mpr ⟨m, hm, rfl⟩]
    rfl
  rw [hread, Yields.ok_iff]
  cases m.inst.constant?.bind Constant.smi? with
  | some k =>
    rw [Leads.bind_iff]
    refine (leads_getConstant hg).mono fun e g' ⟨hext, he⟩ => ?_
    obtain ⟨n, hn, hgiven⟩ := hext.linked.initial e he
    refine (leads_insertStep .unboxDouble hext.linked (hsize.trans hext.size_le)
      ((hext.mem_insts_iff (hg.bounded b before hbefore)).mpr hbefore) hn (Inst.isDefinition_of_isGiven hgiven)
      (fun _ => .inl he) (fun _ hnot => absurd he hnot) (Inst.representation_of_isGiven hgiven) (by simp) rfl rfl).mono
      ?_
    exact fun _ _ h => h.after hext
  | none =>
    rw [Leads.bind_iff, Leads.get_iff, Leads.bind_iff, Leads.lift_iff]
    have hcls : g.classOf d = .ok (m.cls.getD m.ownClass) := by
      unfold classOf
      rw [node_eq_ok.mpr hm]
      rfl
    rw [hcls, Yields.ok_iff]
    refine Leads.ite_iff.mpr ⟨fun _ => ?_, fun _ => ?_⟩
    · exact leads_insertStep _ hg hsize hbefore hm hdef (fun _ => hd) hchain hrep (by simp) rfl rfl
    · exact leads_insertStep _ hg hsize hbefore hm hdef (fun _ => hd) hchain hrep (by simp) rfl rfl

/-- Every two representations that differ have conversions between them. -/
theorem leads_insertConversion {source target : Representation} (hg : Linked g) (hsize : old ≤ g.nodes.size)
    (hbefore : before ∈ g.insts b) (hm : g.nodes[d.index]? = some m) (hdef : m.inst.isDefinition = true)
    (hd : Value g d) (hold : d.index < old) (hrep : m.inst.representation = source) (hne : source ≠ target) :
    Leads False g (insertConversion before d source target) fun c g' => Converted old g b before target c g' := by
  have hchain : old ≤ d.index → d ∉ g.initialDefinitions → Converts old g b before d :=
    fun hge => absurd hold (Nat.not_lt.mpr hge)
  have hlt := hg.bounded b before hbefore
  cases source <;> cases target <;> unfold insertConversion
  case tagged.tagged | unboxedDouble.unboxedDouble | unboxedMint.unboxedMint => exact absurd rfl hne
  case tagged.unboxedMint | unboxedMint.tagged | unboxedDouble.tagged =>
    exact leads_insertStep _ hg hsize hbefore hm hdef (fun _ => hd) hchain hrep (by simp) rfl rfl
  case tagged.unboxedDouble => exact leads_insertDouble hg hsize hbefore hm hdef hd hold hrep
  case unboxedMint.unboxedDouble =>
    rw [Leads.bind_iff]
    refine (leads_insertStep .boxInteger hg hsize hbefore hm hdef (fun _ => hd) hchain hrep (by simp) rfl rfl).mono ?_
    exact fun c g' h => h.leads_insertStep hsize hbefore hlt rfl (by simp) rfl rfl
  case unboxedDouble.unboxedMint =>
    rw [Leads.bind_iff]
    refine (leads_insertStep .boxDouble hg hsize hbefore hm hdef (fun _ => hd) hchain hrep (by simp) rfl rfl).mono ?_
    exact fun c g' h => h.leads_insertStep hsize hbefore hlt rfl (by simp) rfl rfl

end Midend.Representations

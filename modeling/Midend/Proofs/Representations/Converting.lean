import Midend.Proofs.Graph.Changes
import Midend.Proofs.Representations.Conversions

/-! # Converting the uses of a definition

One use after another gets a converted value. The list of uses changes on the way, but what is added to it fits.
-/

namespace Midend.Representations

open FlowGraph Execution Ssa

variable {g₀ g g' : FlowGraph} {b p : BlockId} {a c d e i user before : InstId} {n m : Node} {u : Use} {k : Nat}

/-! ## Another input -/

theorem exists_node_rewired (user : InstId) (k : Nat) (a d : InstId) {j : InstId} (hn : g.nodes[j.index]? = some n) :
    ∃ n', (g.rewired user k a d).nodes[j.index]? = some n' ∧ n'.block = n.block ∧ n'.cls = n.cls ∧
      n'.inst = (if j = user then n.inst.setArg k d else n.inst) ∧
      ∀ u, u ∈ n'.inputUses ↔ (u ∈ n.inputUses ∧ (j = a → u ≠ ⟨user, k⟩)) ∨ (j = d ∧ u = ⟨user, k⟩) := by
  unfold rewired
  rw [nodes_forgetUses, nodes_mapNodes, hn, Option.map_some]
  refine ⟨_, rfl, rfl, rfl, rfl, fun u => ?_⟩
  rw [List.mem_append]
  refine or_congr ?_ ?_
  · by_cases hj : j = a <;> simp [hj]
  · by_cases hj : j = d <;> simp [hj]

theorem grows_rewired (hg : Linked g) : Grows g (g.rewired user k a d) where
  nodes i n hn := by
    obtain ⟨n', hn', hblock, hcls, hinst, -⟩ := exists_node_rewired user k a d hn
    refine ⟨n', hn', ?_, hblock, hcls⟩
    rw [hinst]
    split
    · exact ⟨_, rfl⟩
    · exact ⟨fun _ e => e, by simp⟩
  blocks := rfl
  postorder := rfl
  catchEntries := rfl
  home _ _ := rfl
  insts b := List.filter_eq_self.mpr fun i hi => decide_eq_true (hg.bounded b i hi)
  last _ := rfl
  initial := ⟨[], by simp [rewired, forgetUses, mapNodes], by simp⟩

theorem advances_rewired (hg : Linked g) (hn : g.nodes[user.index]? = some n) (hm : g.nodes[c.index]? = some m)
    (hrep : m.inst.representation = n.inst.requiredRepresentation k) : Advances g (g.rewired user k a c) where
  toGrows := grows_rewired hg
  uses d l l' hl hl' u hu := by
    obtain ⟨l'', hl'', -, -, -, huses⟩ := exists_node_rewired user k a c hl
    obtain rfl := Option.some_inj.mp (hl'.symm.trans hl'')
    obtain ⟨hu, -⟩ | ⟨rfl, rfl⟩ := (huses u).mp hu
    · exact .inl hu
    · obtain ⟨n', hn', ⟨f, hf⟩, -⟩ := (grows_rewired hg).nodes user n hn
      obtain ⟨m', hm', ⟨f', hf'⟩, -⟩ := (grows_rewired hg).nodes d m hm
      refine .inr ⟨n', m', hn', hm', .inl ?_⟩
      rw [hf, hf', Inst.representation_mapArgs, Inst.requiredRepresentation_mapArgs, hrep]
  fresh d hd l hl := absurd (size_rewired ▸ (Array.getElem?_eq_some_iff.mp hl).1) (Nat.not_lt.mpr hd)

theorem getElem?_args_setArg {i : Inst} (l : Nat) :
    (i.setArg k d).args[l]? = (i.args[l]?).map fun a => if l = k then d else a := by
  rw [Inst.setArg_eq, Inst.args_mapArgs, List.getElem?_mapIdx]

theorem args_rewired {j : InstId} {n' : Node} {l : Nat}
    (hinst : n'.inst = if j = user then n.inst.setArg k d else n.inst) : n'.inst.args[l]? = if j = user ∧
    l = k then (n.inst.args[l]?).map fun _ => d else n.inst.args[l]? := by
  rw [hinst]
  by_cases hj : j = user
  · rw [if_pos hj, getElem?_args_setArg]
    by_cases hl : l = k <;> simp [hj, hl]
  · simp [hj]

theorem linked_rewired (hg : Linked g) (hn : g.nodes[user.index]? = some n) (harg : n.inst.args[k]? = some a)
    (hpoint : conversionPoint? g ⟨user, k⟩ = .ok (some e)) (hm : g.nodes[c.index]? = some m)
    (hdef : m.inst.isDefinition = true) (hc : Reader g user → Value g c) : Linked (g.rewired user k a c) := by
  have hgrows : Grows g (g.rewired user k a c) := grows_rewired hg
  refine hg.grows hgrows hg.sound (fun b i hi => size_rewired.symm ▸ hg.bounded b i hi) (fun d hd hge => ?_)
    (fun i l hge hl => ?_) (fun i hi => ?_) fun d l hd hl u hu => ?_
  · exact absurd (hg.lt_size_of_value (.inl hd)) (Nat.not_lt.mpr hge)
  · exact absurd (size_rewired ▸ (Array.getElem?_eq_some_iff.mp hl).1) (Nat.not_lt.mpr hge)
  · have hlt : i.index < g.nodes.size := by
      obtain ⟨b, hb, hi | hi⟩ := hi
      · exact hg.bounded b i hi
      · exact hg.lt_size_of_phi hb (hgrows.phisOf_eq b ▸ hi.1)
    have hreader := (hgrows.reader_iff hlt).mp hi
    obtain ⟨l, hl, hargs⟩ := hg.inputs i hreader
    obtain ⟨l', hl', -, -, hinst, -⟩ := exists_node_rewired user k a c hl
    refine ⟨l', hl', fun k' d hk' => ?_⟩
    rw [args_rewired hinst] at hk'
    split at hk'
    case isTrue heq =>
      obtain ⟨rfl, rfl⟩ := heq
      obtain ⟨_, -, rfl⟩ := Option.map_eq_some_iff.mp hk'
      obtain ⟨m', hm', ⟨f, hf⟩, -⟩ := hgrows.nodes c m hm
      obtain ⟨m'', hm'', -, -, -, huses⟩ := exists_node_rewired i k' a c hm
      obtain rfl := Option.some_inj.mp (hm'.symm.trans hm'')
      refine ⟨hg.value_mono hgrows (hc hreader), m', hm', by rwa [hf, Inst.isDefinition_mapArgs], ?_⟩
      exact (huses _).mpr (.inr ⟨rfl, rfl⟩)
    case isFalse hne =>
      obtain ⟨hd, m', hm', hdef', hmem⟩ := hargs k' d hk'
      obtain ⟨m'', hm'', ⟨f, hf⟩, -⟩ := hgrows.nodes d m' hm'
      obtain ⟨l'', hk'', -, -, -, huses⟩ := exists_node_rewired user k a c hm'
      obtain rfl := Option.some_inj.mp (hm''.symm.trans hk'')
      refine ⟨hg.value_mono hgrows hd, m'', hm'', by rwa [hf, Inst.isDefinition_mapArgs], ?_⟩
      refine (huses _).mpr (.inl ⟨hmem, fun _ heq => hne ?_⟩)
      exact ⟨congrArg Use.user heq, congrArg Use.index heq⟩
  · have hlt : d.index < g.nodes.size := size_rewired ▸ (Array.getElem?_eq_some_iff.mp hl).1
    have hold := Array.getElem?_eq_getElem hlt
    have hd := (hgrows.value_iff hlt).mp hd
    obtain ⟨l', hl', -, -, -, huses⟩ := exists_node_rewired user k a c hold
    obtain rfl := Option.some_inj.mp (hl.symm.trans hl')
    obtain ⟨hmem, hkept⟩ | ⟨rfl, rfl⟩ := (huses u).mp hu
    · obtain ⟨hu, hused⟩ := hg.uses d _ hd hold u hmem
      refine ⟨hu.grows hgrows, fun r e' hr hpoint' => ?_⟩
      rw [hgrows.conversionPoint?_eq hu.lt_size] at hpoint'
      have hr₀ := Array.getElem?_eq_getElem hu.lt_size
      obtain ⟨r', hr', -, -, hinst, -⟩ := exists_node_rewired user k a c hr₀
      obtain rfl := Option.some_inj.mp (hr.symm.trans hr')
      have harg' := hused _ e' hr₀ hpoint'
      rw [args_rewired hinst, if_neg]
      · exact harg'
      · -- The use that is gone was the use of `a` alone.
        rintro ⟨huser, hindex⟩
        obtain rfl : u = ⟨user, k⟩ := by cases u; simp_all
        obtain rfl := Option.some_inj.mp (hn.symm.trans hr₀)
        exact hkept (Option.some_inj.mp (harg'.symm.trans harg)) rfl
    · have hu : Convertible g ⟨user, k⟩ :=
        ⟨n, some e, hn, hpoint, fun _ => (List.getElem?_eq_some_iff.mp harg).1⟩
      refine ⟨hu.grows hgrows, fun r _ hr _ => ?_⟩
      obtain ⟨r', hr', -, -, hinst, -⟩ := exists_node_rewired user k a d hn
      obtain rfl := Option.some_inj.mp (hr.symm.trans hr')
      rw [args_rewired hinst, if_pos ⟨rfl, rfl⟩, harg]
      rfl

/-! ## One use -/

/-- What holds of `g` while the definitions of `g₀` are converted. -/
structure Converting (g₀ g : FlowGraph) : Prop extends Advances g₀ g where
  linked : Linked g
  inputs : ∀ (i : InstId) n₀ n, g₀.nodes[i.index]? = some n₀ → g.nodes[i.index]? = some n →
    ∀ k d, n.inst.args[k]? = some d → n₀.inst.args[k]? = some d ∨
      ∃ before b, conversionPoint? g₀ ⟨i, k⟩ = .ok (some before) ∧ before ∈ g.insts b ∧
      Converts g₀.nodes.size g b before d

namespace Converting

theorem refl (hg : Linked g) : Converting g g where
  toAdvances := .refl hg
  linked := hg
  inputs i n₀ n hn₀ hn k d hk := by
    obtain rfl := Option.some_inj.mp (hn₀.symm.trans hn)
    exact .inl hk

theorem extended (h : Converting g₀ g) (hext : Extends g g') : Converting g₀ g' where
  toAdvances := h.toAdvances.trans hext.toAdvances
  linked := hext.linked
  inputs i n₀ n' hn₀ hn' k d hk := by
    obtain ⟨n, hn, -⟩ := h.nodes i n₀ hn₀
    obtain ⟨n'', hn'', hinst⟩ := hext.kept i n hn
    obtain rfl := Option.some_inj.mp (hn'.symm.trans hn'')
    refine (h.inputs i n₀ n hn₀ hn k d (hinst ▸ hk)).imp_right ?_
    rintro ⟨before, b, hpoint, hbefore, hd⟩
    exact ⟨before, b, hpoint, (hext.mem_insts_iff (h.linked.bounded b before hbefore)).mpr hbefore,
      hd.grows h.size_le hext.toGrows fun i n _ hn => hext.kept i n hn⟩

theorem rewired (h : Converting g₀ g) (huser : user.index < g₀.nodes.size) (hn : g.nodes[user.index]? = some n)
    (harg : n.inst.args[k]? = some a) (hpoint : conversionPoint? g ⟨user, k⟩ = .ok (some before))
    (hbefore : before ∈ g.insts b) (hm : g.nodes[c.index]? = some m) (hdef : m.inst.isDefinition = true)
    (hrep : m.inst.representation = n.inst.requiredRepresentation k) (hmem : c ∈ g.insts b)
    (hchain : Converts g₀.nodes.size g b before c) : Converting g₀ (g.rewired user k a c) where
  toAdvances := h.toAdvances.trans (advances_rewired h.linked hn hm hrep)
  linked := by
    refine linked_rewired h.linked hn harg hpoint hm hdef fun hreader => ?_
    obtain ⟨e, hpoint', b', hb', he⟩ :=
      h.linked.conversionPoint?_of_reader hreader hn (List.getElem?_eq_some_iff.mp harg).1
    obtain rfl := Option.some_inj.mp (Except.ok.inj (hpoint.symm.trans hpoint'))
    obtain rfl := Option.some_inj.mp ((h.linked.sound.mem_iff.mp hbefore).symm.trans (h.linked.sound.mem_iff.mp he))
    exact .inr ⟨b, hb', .inl hmem⟩
  inputs i n₀ l hn₀ hl k' d hk' := by
    have hkept (j : InstId) (r : Node) (hj : g₀.nodes.size ≤ j.index) (hr : g.nodes[j.index]? = some r) :
        ∃ r', (g.rewired user k a c).nodes[j.index]? = some r' ∧ r'.inst = r.inst := by
      obtain ⟨r', hr', -, -, hinst, -⟩ := exists_node_rewired user k a c hr
      rw [if_neg (by rintro rfl; exact Nat.not_lt.mpr hj huser)] at hinst
      exact ⟨r', hr', hinst⟩
    have hgrows : Grows g (g.rewired user k a c) := grows_rewired h.linked
    obtain ⟨l₀, hl₀, -⟩ := h.nodes i n₀ hn₀
    obtain ⟨l', hl', -, -, hinst, -⟩ := exists_node_rewired user k a c hl₀
    obtain rfl := Option.some_inj.mp (hl.symm.trans hl')
    rw [args_rewired hinst] at hk'
    split at hk'
    case isTrue heq =>
      obtain ⟨rfl, rfl⟩ := heq
      obtain ⟨_, -, rfl⟩ := Option.map_eq_some_iff.mp hk'
      rw [h.conversionPoint?_eq huser] at hpoint
      exact .inr ⟨before, b, hpoint, hbefore, hchain.grows h.size_le hgrows hkept⟩
    case isFalse hne =>
      refine (h.inputs i n₀ l₀ hn₀ hl₀ k' d hk').imp_right ?_
      rintro ⟨before, b, hpoint, hbefore, hd⟩
      exact ⟨before, b, hpoint, hbefore, hd.grows h.size_le hgrows hkept⟩

end Converting

theorem leads_convertUse_of_fits (hm : g.nodes[d.index]? = some m) (hu : Convertible g u) (hfits : Fits g d u) :
    Leads False g (convertUse d m.inst.representation u) fun changed g' => changed = false ∧ g' = g := by
  obtain ⟨n, point, hn, hpoint, -⟩ := hu
  obtain ⟨n', m', hn', hm', hfits⟩ := hfits
  obtain rfl := Option.some_inj.mp (hn.symm.trans hn')
  obtain rfl := Option.some_inj.mp (hm.symm.trans hm')
  unfold convertUse
  rw [Leads.bind_iff, Leads.get_iff, Leads.bind_iff, Leads.lift_iff, inst_eq_ok.mpr ⟨n, hn, rfl⟩, Yields.ok_iff]
  refine Leads.ite_iff.mpr ⟨fun _ => ⟨rfl, rfl⟩, fun hne => ?_⟩
  rw [Leads.bind_iff, Leads.lift_iff, hfits.resolve_left hne, Yields.ok_iff]
  exact ⟨rfl, rfl⟩

theorem leads_convertUse (hg : Converting g₀ g) (hd : Value g d) (hold : d.index < g₀.nodes.size)
    (hm : g.nodes[d.index]? = some m) (hdef : m.inst.isDefinition = true) (hu : Convertible g u)
    (huser : ¬ Fits g d u → u.user.index < g₀.nodes.size) :
    Leads False g (convertUse d m.inst.representation u) fun _ g' => Converting g₀ g' ∧ Advances g g' ∧
      ∀ m', g'.nodes[d.index]? = some m' → u ∈ m'.inputUses → Fits g' d u := by
  by_cases hfits : Fits g d u
  · refine (leads_convertUse_of_fits hm hu hfits).mono ?_
    rintro _ _ ⟨-, rfl⟩
    exact ⟨hg, .refl hg.linked, fun _ _ _ => hfits⟩
  obtain ⟨n, point, hn, hpoint, hlen⟩ := hu
  have hne : m.inst.representation ≠ n.inst.requiredRepresentation u.index := fun h => hfits ⟨n, m, hn, hm, .inl h⟩
  obtain ⟨before, rfl⟩ : ∃ before, point = some before :=
    Option.ne_none_iff_exists'.mp fun h => hfits ⟨n, m, hn, hm, .inr (h ▸ hpoint)⟩
  obtain ⟨b, hbefore⟩ := exists_mem_of_conversionPoint? hg.linked.sound hpoint
  unfold convertUse
  rw [Leads.bind_iff, Leads.get_iff, Leads.bind_iff, Leads.lift_iff, inst_eq_ok.mpr ⟨n, hn, rfl⟩, Yields.ok_iff]
  refine Leads.ite_iff.mpr ⟨fun h => absurd h hne, fun _ => ?_⟩
  rw [Leads.bind_iff, Leads.lift_iff, hpoint, Yields.ok_iff]
  dsimp only
  rw [Leads.bind_iff]
  refine (leads_insertConversion hg.linked hg.size_le hbefore hm hdef hd hold rfl hne).mono fun c g₁ hc => ?_
  obtain ⟨n₁, hn₁, hinst⟩ := hc.kept u.user n hn
  rw [Leads.bind_iff]
  refine (Leads.setArg fun _ => ⟨n₁, hn₁, by rw [hinst]; exact hlen (by simp)⟩).mono ?_
  rintro _ _ ⟨n', a, hn', harg, rfl⟩
  obtain rfl := Option.some_inj.mp (hn₁.symm.trans hn')
  obtain ⟨l, hl, hdef', hrep⟩ := hc.node
  have hpoint₁ : conversionPoint? g₁ u = .ok (some before) :=
    (hc.conversionPoint?_eq (Array.getElem?_eq_some_iff.mp hn).1).trans hpoint
  have hrep' : l.inst.representation = n₁.inst.requiredRepresentation u.index := by rw [hrep, hinst]
  have hbefore₁ := (hc.mem_insts_iff (hg.linked.bounded b before hbefore)).mpr hbefore
  refine ⟨(hg.extended hc.toExtends).rewired (huser hfits) hn₁ harg hpoint₁ hbefore₁ hl hdef' hrep' hc.mem hc.chain,
    hc.toAdvances.trans (advances_rewired hc.linked hn₁ hl hrep'), fun m' hm' hmem => ?_⟩
  obtain ⟨m₁, hm₁, -⟩ := hc.nodes d m hm
  obtain ⟨m₂, hm₂, -, -, -, huses⟩ := exists_node_rewired u.user u.index a c hm₁
  obtain rfl := Option.some_inj.mp (hm'.symm.trans hm₂)
  exfalso
  obtain ⟨hmem, hkept⟩ | ⟨rfl, -⟩ := (huses u).mp hmem
  · obtain ⟨-, hused⟩ := hc.linked.uses d m₁ (hg.linked.value_mono hc.toGrows hd) hm₁ u hmem
    exact hkept (Option.some_inj.mp ((hused n₁ before hn₁ hpoint₁).symm.trans harg)) rfl
  · exact absurd (Array.getElem?_eq_some_iff.mp hm).1 (Nat.not_lt.mpr hc.new)

/-! ## All uses -/

theorem leads_convertUses_of_settled (hg : Linked g) (hd : Value g d) (hsettled : Settled g d) :
    Leads False g (convertUses d) fun changed g' => changed = false ∧ g' = g := by
  obtain ⟨m, hm⟩ : ∃ m, g.nodes[d.index]? = some m := ⟨_, Array.getElem?_eq_getElem (hg.lt_size_of_value hd)⟩
  unfold convertUses
  rw [Leads.bind_iff, Leads.get_iff, Leads.bind_iff, Leads.lift_iff, inst_eq_ok.mpr ⟨_, hm, rfl⟩, Yields.ok_iff,
    Leads.bind_iff, Leads.lift_iff, inputUses_eq_ok.mpr ⟨_, hm, rfl⟩, Yields.ok_iff]
  exact Leads.anyChange_idle fun u hu => leads_convertUse_of_fits hm (hg.uses d m hd hm u hu).1 (hsettled m hm u hu)

/-- Once its uses are converted, a definition is settled. -/
theorem leads_convertUses (hg₀ : Linked g₀) (hg : Converting g₀ g) (hd : Value g d) (hm : g.nodes[d.index]? = some m)
    (hdef : m.inst.isDefinition = true) :
    Leads False g (convertUses d) fun _ g' => Converting g₀ g' ∧ Advances g g' ∧ Settled g' d := by
  by_cases hsettled : Settled g d
  · refine (leads_convertUses_of_settled hg.linked hd hsettled).mono ?_
    rintro _ _ ⟨-, rfl⟩
    exact ⟨hg, .refl hg.linked, hsettled⟩
  have hold : d.index < g₀.nodes.size := Nat.not_le.mp fun hge => hsettled (hg.fresh d hge)
  unfold convertUses
  rw [Leads.bind_iff, Leads.get_iff, Leads.bind_iff, Leads.lift_iff, inst_eq_ok.mpr ⟨_, hm, rfl⟩, Yields.ok_iff,
    Leads.bind_iff, Leads.lift_iff, inputUses_eq_ok.mpr ⟨_, hm, rfl⟩, Yields.ok_iff]
  -- Of the uses that are still listed, those that have been visited fit.
  refine (Leads.anyChange (fun done _ g' => Converting g₀ g' ∧ Advances g g' ∧ ∀ m', g'.nodes[d.index]? = some m' →
    ∀ v ∈ m'.inputUses, v ∈ done → Fits g' d v) ⟨hg, .refl hg.linked, fun _ _ _ _ hv => by cases hv⟩ ?_).mono ?_
  · rintro done u rest _ g' hus ⟨hg', hadvances, hdone⟩
    have hu : u ∈ m.inputUses := by simp [hus]
    obtain ⟨m', hm', ⟨f, hf⟩, -⟩ := hadvances.nodes d m hm
    have hrep : m.inst.representation = m'.inst.representation := by rw [hf, Inst.representation_mapArgs]
    have huser (hfits : ¬ Fits g' d u) : u.user.index < g₀.nodes.size := by
      have hm₀ := Array.getElem?_eq_getElem hold
      have hu₀ := (hg.uses d _ m hm₀ hm u hu).resolve_right fun h => hfits (h.grows hadvances.toGrows)
      exact (hg₀.uses d _ ((hg.value_iff hold).mp hd) hm₀ u hu₀).1.lt_size
    rw [hrep]
    refine (leads_convertUse hg' (hg.linked.value_mono hadvances.toGrows hd) hold hm'
      (by rwa [hf, Inst.isDefinition_mapArgs]) ((hg.linked.uses d m hd hm u hu).1.grows hadvances.toGrows) huser).mono
      ?_
    rintro _ g'' ⟨hg'', hadvances', hfits⟩
    refine ⟨hg'', hadvances.trans hadvances', fun m'' hm'' v hv hvisited => ?_⟩
    obtain hvisited | hvisited := List.mem_append.mp hvisited
    · obtain hold | hfits := hadvances'.uses d m' m'' hm' hm'' v hv
      · exact (hdone m' hm' v hold hvisited).grows hadvances'.toGrows
      · exact hfits
    · obtain rfl := List.mem_singleton.mp hvisited
      exact hfits m'' hm'' hv
  · rintro _ g' ⟨hg', hadvances, hdone⟩
    refine ⟨hg', hadvances, fun m' hm' v hv => ?_⟩
    obtain hold | hfits := hadvances.uses d m m' hm hm' v hv
    · exact hdone m' hm' v hv hold
    · exact hfits

end Midend.Representations

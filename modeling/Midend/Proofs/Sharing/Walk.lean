import Midend.Proofs.Execution.Traces
import Midend.Proofs.Loads.Rewriting
import Midend.Sharing

/-! # The walk that shares values

The dominator tree is walked with the values that are at hand. An instruction at hand is never taken out later, and
neither are its inputs, so that the key it was found under stays its key.
-/

namespace Midend

/-! ## Keys -/

namespace Inst

variable {d : Inst} {f : InstId → InstId} {key : ValueKey}

theorem valueMark_mapArgs {f : Nat → InstId → InstId} : (d.mapArgs f).valueMark = d.valueMark := by cases d <;> rfl

theorem valueKey_eq_ok : d.valueKey = .ok key ↔ d.valueMark = .ok key.mark ∧ key.opcode = d.opcode ∧
    key.args = d.args := by
  unfold valueKey
  simp only [bind_eq_ok, pure_eq_ok]
  constructor
  · rintro ⟨mark, hmark, rfl⟩
    exact ⟨hmark, rfl, rfl⟩
  · rintro ⟨hmark, hopcode, hargs⟩
    exact ⟨_, hmark, by rw [← hopcode, ← hargs]⟩

theorem valueKey_mapArgs (h : d.valueKey = .ok key) :
    (d.mapArgs fun _ => f).valueKey = .ok { key with args := key.args.map f } := by
  obtain ⟨hmark, hopcode, hargs⟩ := valueKey_eq_ok.mp h
  refine valueKey_eq_ok.mpr ⟨?_, ?_, ?_⟩
  · rw [valueMark_mapArgs, hmark]
  · rw [opcode_mapArgs, hopcode]
  · rw [args_mapArgs_const, hargs]

end Inst

namespace Sharing

open FlowGraph Execution
open Loads (Outline Wired Counts instead)

variable {g h h' : FlowGraph} {κ : InstId → InstId} {todo todo' : InstId → Prop} {known : ValueKey × InstId → Prop}
  {b c : BlockId} {d e i : InstId} {key : ValueKey} {values : Values} {n : Node} {front back : List InstId}

/-! ## What the walk has done -/

def Gone (g h : FlowGraph) (d : InstId) : Prop := (∃ b, d ∈ g.insts b) ∧ h.isPlaced d = false

theorem isPlaced_of_not_gone (hd : d ∈ g.insts b) (hnot : ¬ Gone g h d) : h.isPlaced d = true := by
  by_contra hplaced
  exact hnot ⟨⟨b, hd⟩, by simpa using hplaced⟩

/-- What the instruction does is determined by its key. -/
structure Keyed (d : Inst) (key : ValueKey) : Prop where
  unaffected : d.affectedBySideEffect = .ok false
  continues : d.isTerminator = false
  key : d.valueKey = .ok key

theorem Keyed.mapArgs {d : Inst} {f : InstId → InstId} (hd : Keyed d key) :
    Keyed (d.mapArgs fun _ => f) { key with args := key.args.map f } where
  unaffected := Inst.affectedBySideEffect_mapArgs.trans hd.unaffected
  continues := Inst.isTerminator_mapArgs.trans hd.continues
  key := Inst.valueKey_mapArgs hd.key

/-- `e` comes before `i` and has the key that `i` would have by now. -/
structure Replaces (g h : FlowGraph) (κ : InstId → InstId) (e i : InstId) : Prop where
  precedes : Precedes g e i
  placed : ∃ a, g.Reachable a ∧ e ∈ g.insts a
  keys : ∃ n m key, g.nodes[i.index]? = some n ∧ h.nodes[e.index]? = some m ∧ Keyed (n.inst.mapArgs fun _ => κ) key ∧
    Keyed m.inst key

/-- The instruction is left, it has the key, and the walk will not come to it or its inputs any more. -/
structure AtHand (g h : FlowGraph) (todo : InstId → Prop) (key : ValueKey) (e : InstId) : Prop where
  home : ∃ a, g.Reachable a ∧ e ∈ g.insts a
  placed : h.isPlaced e = true
  keyed : ∃ m, h.nodes[e.index]? = some m ∧ Keyed m.inst key
  done : ¬ todo e
  inputs : ∀ a ∈ key.args, ¬ todo a

/-- `h` is `g` with `κ d` read in the place of `d`, once the walk has been everywhere but at `todo`. -/
structure Walked (g h : FlowGraph) (κ : InstId → InstId) (todo : InstId → Prop) (known : ValueKey × InstId → Prop) :
    Prop where
  outline : Outline g h fun _ => none
  wired : Wired g h κ fun _ => none
  blocks : h.blocks = g.blocks
  kept : ∀ d, Gone g h d ∨ κ d = d
  ahead : ∀ d, todo d → ¬ Gone g h d
  shared : ∀ i, Gone g h i → ¬ todo (κ i) ∧ ¬ Gone g h (κ i) ∧ Replaces g h κ (κ i) i
  ready : ∀ key e, known (key, e) → AtHand g h todo key e

theorem Walked.start (hg : Definite g) : Walked g g id todo fun _ => False where
  outline := .of_definite hg
  wired := .of_definite hg
  blocks := rfl
  kept _ := .inr rfl
  ahead d _ hgone := by
    obtain ⟨⟨b, hb⟩, hplaced⟩ := hgone
    simp [hg.isPlaced_of_mem hb] at hplaced
  shared i hgone := by
    obtain ⟨⟨b, hb⟩, hplaced⟩ := hgone
    simp [hg.isPlaced_of_mem hb] at hplaced
  ready _ _ h := h.elim

namespace Walked

theorem mono {known' : ValueKey × InstId → Prop} (hw : Walked g h κ todo known) (htodo : ∀ d, todo' d → todo d)
    (hknown : ∀ kv, known' kv → known kv) : Walked g h κ todo' known' where
  outline := hw.outline
  wired := hw.wired
  blocks := hw.blocks
  kept := hw.kept
  ahead d hd := hw.ahead d (htodo d hd)
  shared i hi := (hw.shared i hi).imp_left fun hnot hd => hnot (htodo _ hd)
  ready key e hkv :=
    have hready := hw.ready key e (hknown _ hkv)
    { hready with
      done := fun hd => hready.done (htodo e hd)
      inputs := fun a ha hd => hready.inputs a ha (htodo a hd) }

theorem mem_insts_of_not_gone (hw : Walked g h κ todo known) (hib : i ∈ g.insts b) (hnot : ¬ Gone g h i) :
    i ∈ h.insts b := by
  rw [hw.outline.insts]
  exact List.mem_filter.mpr ⟨hib, isPlaced_of_not_gone hib hnot⟩

theorem counts_of_placed (hw : Walked g h κ todo known) (hb : g.Reachable b) (hib : i ∈ g.insts b)
    (hnot : ¬ Gone g h i) : Counts g h i := .inl ⟨b, hb, hw.mem_insts_of_not_gone hib hnot⟩

theorem not_todo_of_input (hw : Walked g h κ todo known) (hd : ¬ todo d) : ¬ todo (κ d) := by
  obtain hgone | heq := hw.kept d
  · exact (hw.shared d hgone).1
  · rwa [heq]

end Walked

theorem Walked.add (hg : Definite g) (hw : Walked g h κ todo known) (hb : g.Reachable b) (hib : i ∈ g.insts b)
    (hi : todo i) (hargs : ∀ n, g.nodes[i.index]? = some n → ∀ a ∈ n.inst.args, ¬ todo a)
    (htodo : ∀ d, todo' d → todo d ∧ d ≠ i) (hn : h.nodes[i.index]? = some n) (hkey : Keyed n.inst key) :
    Walked g h κ todo' fun kv => known kv ∨ kv = (key, i) := by
  obtain ⟨m, hm⟩ : ∃ m, g.nodes[i.index]? = some m := ⟨_, Array.getElem?_eq_getElem (hg.lt_size hib)⟩
  have hinst := hw.wired.kept i m n (hw.counts_of_placed hb hib (hw.ahead i hi)) hm hn
  have hw' := hw.mono (fun d hd => (htodo d hd).1) fun _ hkv => hkv
  refine { hw' with ready := fun key' e hkv => ?_ }
  obtain hkv | hkv := hkv
  · exact hw'.ready key' e hkv
  obtain ⟨rfl, rfl⟩ := Prod.mk.inj hkv
  refine ⟨⟨b, hb, hib⟩, isPlaced_of_not_gone hib (hw.ahead _ hi), ⟨n, hn, hkey⟩, fun hd => (htodo _ hd).2 rfl,
    fun a ha hd => ?_⟩
  rw [(Inst.valueKey_eq_ok.mp hkey.key).2.2, hinst, Inst.args_mapArgs_const] at ha
  obtain ⟨o, ho, rfl⟩ := List.mem_map.mp ha
  exact hw.not_todo_of_input (hargs m hm o ho) (htodo _ hd).1

theorem Keyed.instead_eq {d : Inst} (hd : Keyed d key) (hi : i ∉ key.args) : (d.mapArgs fun _ => instead i e) = d := by
  have hsame (k : Nat) (a : InstId) (ha : d.args[k]? = some a) : instead i e a = a := by
    refine Loads.instead_of_ne ?_
    rintro rfl
    exact hi ((Inst.valueKey_eq_ok.mp hd.key).2.2 ▸ List.mem_of_getElem? ha)
  rw [Inst.mapArgs_congr hsame, Inst.mapArgs_id]

/-- `i` was taken out and `e` is read in its place. -/
structure Replaced (g h : FlowGraph) (κ : InstId → InstId) (i e : InstId) (h' : FlowGraph) : Prop where
  outline : Outline g h' fun _ => none
  wired : Wired g h' (fun d => instead i e (κ d)) fun _ => none
  blocks : h'.blocks = h.blocks
  placed : ∀ j, h'.isPlaced j = (decide (j ≠ i) && h.isPlaced j)
  node : ∀ (j : InstId) l, Counts g h j → h.nodes[j.index]? = some l →
    ∃ l', h'.nodes[j.index]? = some l' ∧ l'.inst = l.inst.mapArgs fun _ => instead i e

theorem replaceByExisting_of_ok (hg : Definite g) (ho : Outline g h fun _ => none) (hw : Wired g h κ fun _ => none)
    (hb : g.Reachable b) (hib : i ∈ g.insts b) (hea : e ∈ g.insts c) (hne : i ≠ e) :
    Leads True h (Edit.replaceByExisting i e) fun _ h' => Replaced g h κ i e h' := by
  unfold Edit.replaceByExisting
  rw [Leads.bind_iff]
  refine Leads.replaceUses_of_ok.mono ?_
  rintro _ h₁ (⟨heq, -⟩ | ⟨n, hn, rfl⟩)
  · exact absurd heq hne
  refine Leads.remove_of_ok.mono ?_
  rintro _ h' ⟨n', b', hn', hb', rfl⟩
  have hold : Loads.Traced g i := .inl ⟨b, hb, hib⟩
  obtain ⟨m, hm⟩ : ∃ m, h.nodes[e.index]? = some m :=
    ⟨_, Array.getElem?_eq_getElem (Nat.lt_of_lt_of_le (hg.lt_size hea) ho.size)⟩
  have houtline := ho.congr (Loads.sameShape_redirected : Loads.SameShape h (h.redirected i e n.inputUses n.envUses))
  have hwired : Wired g (h.redirected i e n.inputUses n.envUses) (fun d => instead i e (κ d)) fun _ => none :=
    hw.redirected hold hn hne hm fun hlt => absurd (hg.lt_size hea) (Nat.not_lt.mpr hlt)
  obtain rfl := hg.block_unique (houtline.mem_of_home hb').1 hib
  refine ⟨houtline.removed hg hb' hb, hwired.removed hg houtline hb', rfl, fun j => Loads.isPlaced_removed,
    fun j l hj hl => ?_⟩
  obtain ⟨l₁, hl₁, hinst₁, -⟩ := Loads.changes_redirected.exists_node hl
  obtain ⟨l', hl', hinst', -⟩ := Loads.changes_removed.exists_node hl₁
  exact ⟨l', hl', hinst'.trans (hw.uses.inst_redirected hold hn hj hl hinst₁)⟩

theorem Replaced.gone_iff (hr : Replaced g h κ i e h') (hib : i ∈ g.insts b) : Gone g h' d ↔ Gone g h d ∨ d = i := by
  unfold Gone
  rw [hr.placed, Bool.and_eq_false_iff, decide_eq_false_iff_not, not_not]
  constructor
  · rintro ⟨hd, rfl | hnot⟩
    · exact .inr rfl
    · exact .inl ⟨hd, hnot⟩
  · rintro (⟨hd, hnot⟩ | rfl)
    · exact ⟨hd, .inr hnot⟩
    · exact ⟨⟨b, hib⟩, .inl rfl⟩

theorem AtHand.replaced (hready : AtHand g h todo key d) (ho : Outline g h fun _ => none) (hr : Replaced g h κ i e h')
    (hi : todo i) (htodo : ∀ d, todo' d → todo d) : AtHand g h' todo' key d := by
  obtain ⟨l, hl, hlkey⟩ := hready.keyed
  obtain ⟨a, ha, hda⟩ := hready.home
  have hcounts : Counts g h d := by
    refine .inl ⟨a, ha, ?_⟩
    rw [ho.insts]
    exact List.mem_filter.mpr ⟨hda, hready.placed⟩
  obtain ⟨l', hl', hinst⟩ := hr.node d l hcounts hl
  rw [hlkey.instead_eq fun h => hready.inputs i h hi] at hinst
  refine ⟨hready.home, ?_, ⟨l', hl', hinst ▸ hlkey⟩, fun hd => hready.done (htodo _ hd),
    fun a ha hd => hready.inputs a ha (htodo a hd)⟩
  rw [hr.placed, hready.placed, Bool.and_true, decide_eq_true_eq]
  rintro rfl
  exact hready.done hi

theorem Walked.replace (hg : Definite g) (hw : Walked g h κ todo known) (hb : g.Reachable b) (hib : i ∈ g.insts b)
    (hi : todo i) (htodo : ∀ d, todo' d → todo d ∧ d ≠ i) (hn : h.nodes[i.index]? = some n) (hkey : Keyed n.inst key)
    (hknown : known (key, e)) (hprecedes : Precedes g e i) :
    Leads True h (Edit.replaceByExisting i e) fun _ h' =>
      Walked g h' (fun d => instead i e (κ d)) todo' known := by
  have hready := hw.ready key e hknown
  obtain ⟨a, ha, hea⟩ := hready.home
  have hne : i ≠ e := by
    rintro rfl
    exact hready.done hi
  refine (replaceByExisting_of_ok hg hw.outline hw.wired hb hib hea hne).mono fun _ h' hr => ?_
  have hgone (d : InstId) : Gone g h' d ↔ Gone g h d ∨ d = i := hr.gone_iff hib
  have hκi : κ i = i := (hw.kept i).resolve_left (hw.ahead i hi)
  refine {
    outline := hr.outline
    wired := hr.wired
    blocks := hr.blocks.trans hw.blocks
    kept := fun d => ?_
    ahead := fun d hd => ?_
    shared := fun j hj => ?_
    ready := fun key' e' hkv => (hw.ready key' e' hkv).replaced hw.outline hr hi fun d hd => (htodo d hd).1 }
  · rw [hgone]
    by_cases hd : d = i
    · exact .inl (.inr hd)
    · refine (hw.kept d).imp .inl fun heq => ?_
      rw [heq, Loads.instead_of_ne hd]
  · rw [hgone, not_or]
    exact ⟨hw.ahead d (htodo d hd).1, (htodo d hd).2⟩
  · by_cases hji : j = i
    · subst hji
      obtain ⟨o, ho⟩ : ∃ o, g.nodes[j.index]? = some o := ⟨_, Array.getElem?_eq_getElem (hg.lt_size hib)⟩
      have hinst := hw.wired.kept j o n (hw.counts_of_placed hb hib (hw.ahead j hi)) ho hn
      have hready' : AtHand g h' todo' key e := hready.replaced hw.outline hr hi fun d hd => (htodo d hd).1
      obtain ⟨m', hm', hmkey⟩ := hready'.keyed
      rw [hκi, Loads.instead_self, hgone, not_or]
      refine ⟨hready'.done, ⟨fun h => ?_, Ne.symm hne⟩, hprecedes, hready.home, o, m', key, ho, hm', ?_, hmkey⟩
      · exact Bool.false_ne_true (h.2.symm.trans hready.placed)
      · have hmap : (o.inst.mapArgs fun _ d => instead j e (κ d)) = n.inst := by
          rw [← hkey.instead_eq fun h => hready.inputs j h hi, hinst, Inst.mapArgs_mapArgs]
        rw [hmap]
        exact hkey
    · obtain ⟨hdone, hplaced, hreplaces⟩ := hw.shared j (((hgone j).mp hj).resolve_right hji)
      have hκj : κ j ≠ i := fun h => hdone (h ▸ hi)
      rw [Loads.instead_of_ne hκj, hgone, not_or]
      obtain ⟨o, m, key', ho, hm, hokey, hmkey⟩ := hreplaces.keys
      obtain ⟨c, hc, hκc⟩ := hreplaces.placed
      obtain ⟨m', hm', hinst⟩ := hr.node (κ j) m (hw.counts_of_placed hc hκc hplaced) hm
      refine ⟨fun hd => hdone (htodo _ hd).1, ⟨hplaced, hκj⟩, hreplaces.precedes, hreplaces.placed, o, m', _, ho, hm',
        ?_, hinst ▸ hmkey.mapArgs⟩
      have hmap : (o.inst.mapArgs fun _ d => instead i e (κ d)) =
          (o.inst.mapArgs fun _ => κ).mapArgs fun _ => instead i e := by rw [Inst.mapArgs_mapArgs]
      rw [hmap]
      exact hokey.mapArgs

/-! ## An instruction -/

theorem mem_of_lookup {k : ValueKey} (h : values.lookup k = some e) : (k, e) ∈ values := by
  induction values with
  | nil => cases h
  | cons kv values ih =>
    obtain ⟨k', e'⟩ := kv
    rw [List.lookup_cons] at h
    split at h
    case h_1 heq =>
      obtain rfl := Option.some_inj.mp h
      rw [eq_of_beq heq]
      exact List.mem_cons_self
    case h_2 => exact List.mem_cons_of_mem _ (ih h)

theorem shareInst_walks (hg : Definite g) (hw : Walked g h κ todo known) (hb : g.Reachable b) (hib : i ∈ g.insts b)
    (hi : todo i) (hargs : ∀ n, g.nodes[i.index]? = some n → ∀ a ∈ n.inst.args, ¬ todo a)
    (htodo : ∀ d, todo' d → todo d ∧ d ≠ i) (hvalues : ∀ kv ∈ values, known kv ∧ Precedes g kv.2 i) :
    Leads True h (shareInst values i) fun r h' =>
      (∃ κ', Walked g h' κ' todo' fun kv => known kv ∨ kv ∈ r.1) ∧ ∀ kv ∈ r.1, kv ∈ values ∨ kv.2 = i := by
  have hskip : (∃ κ', Walked g h κ' todo' fun kv => known kv ∨ kv ∈ values) ∧ ∀ kv ∈ values, kv ∈ values ∨ kv.2 = i :=
    ⟨⟨κ, hw.mono (fun d hd => (htodo d hd).1) fun kv hkv => hkv.elim id fun h => (hvalues kv h).1⟩, fun _ => .inl⟩
  unfold shareInst
  rw [Leads.bind_iff, Leads.get_iff, Leads.bind_iff, Leads.lift_iff]
  refine Yields.of_ok fun d hd => ?_
  obtain ⟨n, hn, rfl⟩ := inst_eq_ok.mp hd
  rw [Leads.bind_iff, Leads.lift_iff]
  refine Yields.of_ok fun affected haffected => ?_
  rw [Leads.ite_iff]
  refine ⟨fun _ => hskip, fun hpure => ?_⟩
  simp only [Bool.or_eq_true, not_or, Bool.not_eq_true] at hpure
  rw [Leads.bind_iff, Leads.lift_iff]
  refine Yields.of_ok fun key hkey => ?_
  have hkeyed : Keyed n.inst key := ⟨hpure.1 ▸ haffected, hpure.2, hkey⟩
  split
  case h_1 e hlookup =>
    obtain ⟨hknown, hprecedes⟩ := hvalues _ (mem_of_lookup hlookup)
    rw [Leads.bind_iff]
    refine (hw.replace hg hb hib hi htodo hn hkeyed hknown hprecedes).mono fun _ h' hw' =>
      ⟨⟨fun d => instead i e (κ d), ?_⟩, fun _ => .inl⟩
    exact hw'.mono (fun _ => id) fun kv hkv => hkv.elim id fun h => (hvalues kv h).1
  case h_2 =>
    refine ⟨⟨κ, (hw.add hg hb hib hi hargs htodo hn hkeyed).mono (fun _ => id) fun kv hkv => ?_⟩, fun kv hkv => ?_⟩
    · rw [List.mem_cons] at hkv
      exact hkv.elim .inl fun h => h.elim .inr fun h => .inl (hvalues kv h).1
    · obtain rfl | h := List.mem_cons.mp hkv
      · exact .inr rfl
      · exact .inl h

/-! ## A block -/

/-- An instruction of a block that one of the given blocks dominates. -/
def Under (g : FlowGraph) (cs : List BlockId) (d : InstId) : Prop :=
  ∃ c ∈ cs, ∃ x, g.Reachable x ∧ g.Dominates c x ∧ d ∈ g.insts x

theorem Under.not_mem (hg : Definite g) {cs : List BlockId} (hcs : ∀ c ∈ cs, ¬ g.Dominates c b) (h : Under g cs d) :
    d ∉ g.insts b := by
  obtain ⟨c, hc, x, -, hdom, hd⟩ := h
  intro hmem
  obtain rfl := hg.block_unique hd hmem
  exact hcs c hc hdom

theorem not_under_of_input (hg : Definite g) {cs : List BlockId} (hcs : ∀ c ∈ cs, ¬ g.Dominates c b)
    (hb : g.Reachable b) (hsplit : g.insts b = front ++ i :: back) (hn : g.nodes[i.index]? = some n)
    (hd : d ∈ n.inst.args) : ¬ Under g cs d ∧ (d ∈ g.insts b → d ∈ front) := by
  obtain hinitial | ⟨a, b', ha, hb', hi, hdom, hfront⟩ := hg.precedes_input hb (by simp [hsplit]) hn hd
  · exact ⟨fun ⟨_, _, x, _, _, hmem⟩ => hg.not_initial hmem hinitial, fun h => absurd hinitial (hg.not_initial h)⟩
  · obtain rfl := hg.block_unique hi (by simp [hsplit] : i ∈ g.insts b)
    refine ⟨fun ⟨c, hc, x, hx, hcx, hmem⟩ => ?_, hfront front back hsplit⟩
    obtain rfl := hg.home_unique hx (hdom.reachable hb) (.inl hmem) ha
    exact hcs c hc (hcx.trans hdom)

theorem shareBlock_walks (hg : Definite g) {cs : List BlockId}
    (hw : Walked g h κ (fun d => d ∈ g.insts b ∨ Under g cs d) known) (hb : g.Reachable b)
    (hcs : ∀ c ∈ cs, ¬ g.Dominates c b) (hvalues : ∀ kv ∈ values, known kv ∧ Available g b [] kv.2) :
    Leads True h (shareBlock values b) fun r h' =>
      (∃ κ', Walked g h' κ' (Under g cs) fun kv => known kv ∨ kv ∈ r.1) ∧
      ∀ kv ∈ r.1, Available g b (g.insts b) kv.2 := by
  have hinsts : h.insts b = g.insts b := by
    rw [hw.outline.insts]
    exact List.filter_eq_self.mpr fun d hd => isPlaced_of_not_gone hd (hw.ahead d (.inl hd))
  unfold shareBlock
  rw [Leads.bind_iff, Leads.get_iff, hinsts]
  refine (Leads.foldlM (fun done r h' =>
    (∃ κ', Walked g h' κ' (fun d => (d ∈ g.insts b ∧ d ∉ done) ∨ Under g cs d) fun kv => known kv ∨ kv ∈ r.1) ∧
      ∀ kv ∈ r.1, Available g b done kv.2) ?_ fun front i back r h' hsplit hinv => ?_).mono ?_
  · refine ⟨⟨κ, hw.mono (fun d hd => hd.imp_left And.left) fun kv hkv => ?_⟩, fun kv hkv => (hvalues kv hkv).2⟩
    exact hkv.elim id fun h => (hvalues kv h).1
  · obtain ⟨values', changed⟩ := r
    obtain ⟨⟨κ', hw'⟩, hvalues'⟩ := hinv
    have hib : i ∈ g.insts b := by simp [hsplit]
    have hnodup : (front ++ i :: back).Nodup := hsplit ▸ hg.located.sound.nodup b
    have hnew : i ∉ front := fun h => (List.nodup_append.mp hnodup).2.2 i h i List.mem_cons_self rfl
    have hnext (d : InstId) (hd : (d ∈ g.insts b ∧ d ∉ front ++ [i]) ∨ Under g cs d) :
        ((d ∈ g.insts b ∧ d ∉ front) ∨ Under g cs d) ∧ d ≠ i := by
      obtain ⟨hd, hnot⟩ | hd := hd
      · simp only [List.mem_append, List.mem_singleton, not_or] at hnot
        exact ⟨.inl ⟨hd, hnot.1⟩, hnot.2⟩
      · exact ⟨.inr hd, fun heq => hd.not_mem hg hcs (heq ▸ hib)⟩
    rw [Leads.bind_iff]
    refine (shareInst_walks hg hw' hb hib (.inl ⟨hib, hnew⟩) (fun n hn a ha => ?_) hnext fun kv hkv => ?_).mono ?_
    · obtain ⟨hunder, hfront⟩ := not_under_of_input hg hcs hb hsplit hn ha
      exact not_or.mpr ⟨fun h => h.2 (hfront h.1), hunder⟩
    · exact ⟨.inr hkv, (hvalues' kv hkv).precedes hg hb hsplit⟩
    · rintro ⟨values'', shared⟩ h'' ⟨⟨κ'', hw''⟩, hmem⟩
      refine ⟨⟨κ'', hw''.mono (fun _ => id) fun kv hkv => hkv.imp_left .inl⟩, fun kv hkv => ?_⟩
      obtain hold | hnew := hmem kv hkv
      · obtain ⟨a, ha, hdom, hfront⟩ := hvalues' kv hold
        exact ⟨a, ha, hdom, fun h => List.mem_append_left _ (hfront h)⟩
      · exact ⟨b, hnew ▸ hib, .refl b, fun _ => by simp [hnew]⟩
  · rintro ⟨values', changed⟩ h' ⟨⟨κ', hw'⟩, hvalues'⟩
    exact ⟨⟨κ', hw'.mono (fun d hd => .inr hd) fun _ => id⟩, hvalues'⟩

/-! ## The tree -/

/-- The blocks on the stack do not dominate each other, and whatever comes before them is at hand. -/
structure Stacked (g : FlowGraph) (stack : List (BlockId × Values)) : Prop where
  fringe : g.Fringe (stack.map Prod.fst)
  available : ∀ s ∈ stack, ∀ kv ∈ s.2, Available g s.1 [] kv.2

theorem Stacked.push (hexact : ExactDominators g g) {stack : List (BlockId × Values)} {k : Block}
    (hs : Stacked g ((b, values) :: stack)) (hk : g.blocks[b.index]? = some k) {values' : Values}
    (hvalues : ∀ kv ∈ values', Available g b (g.insts b) kv.2) :
    Stacked g (k.dominated.reverse.map (·, values') ++ stack) := by
  have hb : g.Reachable b := hs.fringe.reachable b List.mem_cons_self
  refine ⟨?_, fun s hmem kv hkv => ?_⟩
  · have hpush := hs.fringe.push hexact hk (List.reverse_perm _)
    simpa [Function.comp_def] using hpush
  · obtain hmem | hmem := List.mem_append.mp hmem
    · obtain ⟨c, hc, rfl⟩ := List.mem_map.mp hmem
      exact (hvalues kv hkv).below hexact hb hk (List.mem_reverse.mp hc)
    · exact hs.available s (List.mem_cons_of_mem _ hmem) kv hkv

/-- The instructions under a block are its own and those under its children. -/
theorem Under.cons_iff (hexact : ExactDominators g g) {cs : List BlockId} {k : Block} (hb : g.Reachable b)
    (hk : g.blocks[b.index]? = some k) : Under g (b :: cs) d ↔ d ∈ g.insts b ∨
    Under g (k.dominated.reverse ++ cs) d := by
  constructor
  · rintro ⟨c, hc, x, hx, hdom, hd⟩
    obtain rfl | hc := List.mem_cons.mp hc
    · by_cases hne : c = x
      · exact .inl (hne ▸ hd)
      · obtain ⟨c', hc', hdom'⟩ := hexact.exists_child hk hx hne hdom
        exact .inr ⟨c', by simp [hc'], x, hx, hdom', hd⟩
    · exact .inr ⟨c, List.mem_append_right _ hc, x, hx, hdom, hd⟩
  · rintro (hd | ⟨c, hc, x, hx, hdom, hd⟩)
    · exact ⟨b, List.mem_cons_self, b, hb, .refl b, hd⟩
    · obtain hc | hc := List.mem_append.mp hc
      · obtain ⟨-, -, hbc, -⟩ := hexact.child hb hk (List.mem_reverse.mp hc)
        exact ⟨b, List.mem_cons_self, x, hx, hbc.trans hdom, hd⟩
      · exact ⟨c, List.mem_cons_of_mem _ hc, x, hx, hdom, hd⟩

theorem shareTree_walks (hg : Definite g) (hexact : ExactDominators g g) (steps : Nat) (stack : List (BlockId × Values))
    (hs : Stacked g stack)
    (hw : Walked g h κ (Under g (stack.map Prod.fst)) fun kv => ∃ s ∈ stack, kv ∈ s.2) :
    Leads True h (shareTree steps stack) fun _ h' => ∃ κ', Walked g h' κ' (fun _ => False) fun _ => False := by
  induction steps generalizing h κ stack with
  | zero =>
    cases stack with
    | nil => exact ⟨κ, hw.mono (fun _ => False.elim) fun _ => False.elim⟩
    | cons => exact trivial
  | succ steps ih =>
    cases stack with
    | nil => exact ⟨κ, hw.mono (fun _ => False.elim) fun _ => False.elim⟩
    | cons s stack =>
      obtain ⟨b, values⟩ := s
      have hb : g.Reachable b := hs.fringe.reachable b List.mem_cons_self
      obtain ⟨k, hk⟩ := hexact.exists_block hb
      have hcs : ∀ c ∈ k.dominated.reverse ++ stack.map Prod.fst, ¬ g.Dominates c b := fun c hc =>
        hs.fringe.not_dominates hexact hk (List.reverse_perm _) hc
      rw [List.map_cons] at hw
      have hw' := hw.mono (fun d hd => (Under.cons_iff hexact hb hk).mpr hd) fun _ => id
      unfold shareTree
      rw [Leads.bind_iff]
      refine (shareBlock_walks hg hw' hb hcs fun kv hkv =>
        ⟨⟨_, List.mem_cons_self, hkv⟩, hs.available _ List.mem_cons_self kv hkv⟩).mono ?_
      rintro ⟨values', here⟩ h' ⟨⟨κ', hw''⟩, hvalues'⟩
      rw [Leads.bind_iff, Leads.get_iff, Leads.bind_iff, Leads.lift_iff]
      refine Yields.of_ok fun k' hk' => ?_
      obtain rfl : k = k' := by
        have := block_eq_ok.mp hk'
        rw [hw''.blocks, hk] at this
        exact Option.some_inj.mp this
      rw [Leads.bind_iff]
      refine (ih _ (hs.push hexact hk hvalues') (hw''.mono ?_ ?_)).mono fun _ _ h => h
      · simp only [List.map_append, List.map_map, Function.comp_def, List.map_id']
        exact fun _ => id
      · rintro kv ⟨s, hmem, hkv⟩
        obtain hmem | hmem := List.mem_append.mp hmem
        · obtain ⟨c, -, rfl⟩ := List.mem_map.mp hmem
          exact .inr hkv
        · exact .inl ⟨s, List.mem_cons_of_mem _ hmem, hkv⟩

end Sharing

end Midend

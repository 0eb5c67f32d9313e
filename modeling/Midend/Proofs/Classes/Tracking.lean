import Midend.Classes
import Midend.Proofs.Graph.Initial
import Midend.Proofs.Graph.Uses

/-! # Keeping track of known classes

While classes are propagated, the class of a definition may become known and may be given up again, but it
does not turn into another one. The proof keeps a map with the first known class of every definition.
-/

namespace Midend.Classes

variable {ctx : Context} {start g : FlowGraph} {κ : InstId → Option ClassId}

/-! ## Merging -/

def IsKnown (c : ClassId) : Prop := c ≠ .dynamic ∧ c ≠ .illegal

instance (c : ClassId) : Decidable (IsKnown c) := inferInstanceAs (Decidable (_ ∧ _))

def OrDynamic (c now : ClassId) : Prop := now = c ∨ now = .dynamic

theorem merge_keeps_left {c a b : ClassId} (hc : c ≠ .illegal) (ha : OrDynamic c a) : OrDynamic c (merge a b) := by
  have hne : a ≠ .illegal := by
    obtain rfl | rfl := ha
    · exact hc
    · decide
  unfold merge
  split_ifs <;> simp_all [OrDynamic]

theorem merge_keeps_right {c a b : ClassId} (hc : c ≠ .illegal) (hb : OrDynamic c b) : OrDynamic c (merge a b) := by
  have hne : b ≠ .illegal := by
    obtain rfl | rfl := hb
    · exact hc
    · decide
  unfold merge
  split_ifs <;> simp_all [OrDynamic]

theorem foldl_merge_keeps {c a : ClassId} {cs : List ClassId} (hc : c ≠ .illegal) (ha : OrDynamic c a) :
    OrDynamic c (cs.foldl merge a) := by
  induction cs generalizing a with
  | nil => exact ha
  | cons b cs ih => exact ih (merge_keeps_left hc ha)

theorem foldl_merge_keeps_of_mem {c a b : ClassId} {cs : List ClassId} (hc : c ≠ .illegal) (hb : b ∈ cs)
    (hkeeps : OrDynamic c b) : OrDynamic c (cs.foldl merge a) := by
  induction cs generalizing a with
  | nil => simp at hb
  | cons x cs ih =>
    rw [List.foldl_cons]
    obtain rfl | hb := List.mem_cons.mp hb
    · exact foldl_merge_keeps hc (merge_keeps_right hc hkeeps)
    · exact ih hb

theorem foldl_merge_mem {a : ClassId} {cs : List ClassId} (hknown : IsKnown (cs.foldl merge a)) :
    cs.foldl merge a = a ∨ cs.foldl merge a ∈ cs := by
  induction cs generalizing a with
  | nil => exact .inl rfl
  | cons b cs ih =>
    obtain h | h := ih hknown
    · have hmerge : merge a b = a ∨ merge a b = b ∨ merge a b = .dynamic := by
        unfold merge
        split_ifs <;> simp
      rw [List.foldl_cons] at hknown ⊢
      rw [h] at hknown ⊢
      obtain h | h | h := hmerge
      · exact .inl h
      · exact .inr (by simp [h])
      · exact absurd h hknown.1
    · exact .inr (List.mem_cons_of_mem b h)

theorem phiClass_keeps {c b : ClassId} {cs : List ClassId} (hc : c ≠ .illegal) (hb : b ∈ cs)
    (hkeeps : OrDynamic c b) : OrDynamic c (phiClass cs) := by
  unfold phiClass
  dsimp only
  split
  · exact .inr rfl
  · exact foldl_merge_keeps_of_mem hc hb hkeeps

theorem phiClass_mem {cs : List ClassId} (hknown : IsKnown (phiClass cs)) : phiClass cs ∈ cs := by
  unfold phiClass at *
  dsimp only at *
  split at hknown
  · exact absurd rfl hknown.1
  · rename_i hne
    rw [if_neg hne]
    exact (foldl_merge_mem hknown).resolve_left hne

/-! ## Known classes -/

/-- The class of a definition as it is recorded now. -/
def current (n : Node) : ClassId := n.cls.getD n.ownClass

theorem classOf_eq_ok {d : InstId} {c : ClassId} :
    g.classOf d = .ok c ↔ ∃ n, g.nodes[d.index]? = some n ∧ current n = c := by
  simp only [FlowGraph.classOf, bind_eq_ok, FlowGraph.node_eq_ok, pure_eq_ok, current]

/-- The only class that a definition other than a phi may be known to have. -/
def fixedClass (ctx : Context) (owner : Option ClassId) : Inst → ClassId
  | .parameter index => parameterClass ctx owner index
  | d => d.resultClass

theorem fixedClass_mapArgs {owner : Option ClassId} {d : Inst} (f : Nat → InstId → InstId) :
    fixedClass ctx owner (d.mapArgs f) = fixedClass ctx owner d := by
  cases d <;> simp [fixedClass, Inst.mapArgs, Inst.resultClass]

theorem resultClass_eq_fixedClass_or {owner : Option ClassId} (d : Inst) :
    d.resultClass = fixedClass ctx owner d ∨ d.resultClass = .dynamic := by
  cases d with
  | parameter => exact .inr rfl
  | _ => exact .inl rfl

/-- An instruction whose class depends on nothing else. -/
def IsPlain (d : Inst) : Prop := d.opcode ≠ .phi ∧ d.opcode ≠ .parameter

theorem fixedClass_of_isPlain {owner : Option ClassId} {d : Inst} (h : IsPlain d) :
    fixedClass ctx owner d = d.resultClass := by
  cases d with
  | parameter => exact absurd rfl h.2
  | _ => rfl

theorem isPlain_mapArgs {d : Inst} (f : Nat → InstId → InstId) : IsPlain (d.mapArgs f) ↔ IsPlain d := by
  simp [IsPlain]

/-- The use is an input that refers to `d`, or belongs to a dead phi. -/
def Refers (g : FlowGraph) (u : Use) (d : InstId) : Prop :=
  ∃ m, g.nodes[u.user.index]? = some m ∧
    ((m.inst.opcode = .phi ∧ m.inst.isAlivePhi = false) ∨ m.inst.args[u.index]? = some d)

def UsesSound (g : FlowGraph) (d : InstId) : Prop :=
  ∀ n, g.nodes[d.index]? = some n → ∀ u ∈ n.inputUses, Refers g u d

theorem Refers.of_ne {u : Use} {d e : InstId} (hd : Refers g u d) (he : Refers g u e) (hne : d ≠ e) :
    ∃ m, g.nodes[u.user.index]? = some m ∧ m.inst.opcode = .phi ∧ m.inst.isAlivePhi = false := by
  obtain ⟨m, hm, hd⟩ := hd
  obtain ⟨m', hm', he⟩ := he
  obtain rfl : m = m' := by simpa [hm] using hm'
  obtain hdead | hd := hd
  · exact ⟨m, hm, hdead⟩
  · obtain hdead | he := he
    · exact ⟨m, hm, hdead⟩
    · exact absurd (by simpa [hd] using he) hne

/-- `κ` has the first known class of every definition that ever had one. -/
structure Tracked (ctx : Context) (start : FlowGraph) (κ : InstId → Option ClassId) (g : FlowGraph) :
    Prop where
  reaching : g.reaching = []
  known : ∀ (d : InstId) n, g.nodes[d.index]? = some n → IsKnown (current n) → κ d = some (current n)
  keeps : ∀ (d : InstId) c, κ d = some c → IsKnown c ∧ ∃ n, g.nodes[d.index]? = some n ∧ OrDynamic c (current n)
  fixed : ∀ (d : InstId) c n, κ d = some c → g.nodes[d.index]? = some n → n.inst.isPhi = false →
    fixedClass ctx start.owner n.inst = c
  /-- A phi owes its class to one of its inputs. -/
  fed : ∀ (d : InstId) c n, κ d = some c → g.nodes[d.index]? = some n → n.inst.isAlivePhi = true →
    ∃ x ∈ n.inst.args, κ x = some c
  plain : ∀ (d : InstId) n, g.nodes[d.index]? = some n → IsPlain n.inst → current n = n.inst.resultClass
  uses : ∀ b ∈ start.reversePostorder, ∀ i ∈ start.insts b, UsesSound g i

def Extends (κ κ' : InstId → Option ClassId) : Prop := ∀ d c, κ d = some c → κ' d = some c

theorem Extends.refl (κ : InstId → Option ClassId) : Extends κ κ := fun _ _ h => h

theorem Extends.trans {κ₁ κ₂ κ₃ : InstId → Option ClassId} (h : Extends κ₁ κ₂) (h' : Extends κ₂ κ₃) :
    Extends κ₁ κ₃ := fun d c hd => h' d c (h d c hd)

/-- `κ` with `c` for `d`, where it is a class that decides type tests. -/
def learn (κ : InstId → Option ClassId) (d : InstId) (c : ClassId) : InstId → Option ClassId :=
  fun x => if x = d ∧ IsKnown c then some c else κ x

structure MayRecord (ctx : Context) (start : FlowGraph) (κ : InstId → Option ClassId) (d : InstId) (n : Node)
    (c : ClassId) : Prop where
  keeps : ∀ c₀, κ d = some c₀ → OrDynamic c₀ c
  fixed : IsKnown c → n.inst.isPhi = false → fixedClass ctx start.owner n.inst = c
  fed : IsKnown c → n.inst.isAlivePhi = true → ∃ x ∈ n.inst.args, κ x = some c
  plain : IsPlain n.inst → c = n.inst.resultClass

theorem MayRecord.extends {d : InstId} {n : Node} {c : ClassId} (h : MayRecord ctx start κ d n c) :
    Extends κ (learn κ d c) := by
  intro x c₀ hx
  unfold learn
  split
  · rename_i hxd
    obtain ⟨rfl, hknown⟩ := hxd
    obtain rfl | rfl := h.keeps c₀ hx
    · rfl
    · exact absurd rfl hknown.1
  · exact hx

theorem Tracked.record {d : InstId} {n : Node} {c : ClassId} (h : Tracked ctx start κ g)
    (hn : g.nodes[d.index]? = some n) (hc : MayRecord ctx start κ d n c) :
    Tracked ctx start (learn κ d c) (g.withNode d fun n => { n with cls := some c }) := by
  -- Every node is as before, but for the class of `d`.
  have hnodes {x : InstId} {m : Node}
      (hx : (g.withNode d fun n => { n with cls := some c }).nodes[x.index]? = some m) :
      ∃ m', g.nodes[x.index]? = some m' ∧ m.inst = m'.inst ∧ m.inputUses = m'.inputUses ∧
        current m = if x = d then c else current m' := by
    rw [FlowGraph.nodes_withNode] at hx
    obtain ⟨m', hm', rfl⟩ := Option.map_eq_some_iff.mp hx
    refine ⟨m', hm', ?_⟩
    by_cases hxd : x = d <;> simp [hxd, current]
  have hext := hc.extends
  have hlearn (x : InstId) (c₀ : ClassId) (hx : learn κ d c x = some c₀) :
      (x = d ∧ IsKnown c ∧ c₀ = c) ∨ κ x = some c₀ := by
    unfold learn at hx
    split at hx
    · rename_i hxd
      exact .inl ⟨hxd.1, hxd.2, by simpa [eq_comm] using hx⟩
    · exact .inr hx
  refine ⟨h.reaching, ?_, ?_, ?_, ?_, ?_, ?_⟩
  · intro x m hx hknown
    obtain ⟨m', hm', -, -, hcur⟩ := hnodes hx
    rw [hcur] at hknown ⊢
    by_cases hxd : x = d
    · simp_all [learn]
    · simp only [hxd, if_false] at hknown ⊢
      exact hext x _ (h.known x m' hm' hknown)
  · intro x c₀ hx
    rw [FlowGraph.nodes_withNode]
    obtain ⟨rfl, hknown, rfl⟩ | hold := hlearn x c₀ hx
    · exact ⟨hknown, _, by rw [hn]; rfl, by simp [OrDynamic, current]⟩
    · obtain ⟨hknown, m, hm, hkeeps⟩ := h.keeps x c₀ hold
      refine ⟨hknown, _, by rw [hm]; rfl, ?_⟩
      by_cases hxd : x = d
      · subst hxd
        simpa [current] using hc.keeps c₀ hold
      · simpa [hxd] using hkeeps
  · intro x c₀ m hx hm hphi
    obtain ⟨m', hm', hinst, -, -⟩ := hnodes hm
    rw [hinst] at hphi ⊢
    obtain ⟨rfl, hknown, rfl⟩ | hx := hlearn x c₀ hx
    · obtain rfl : n = m' := by simpa [hn] using hm'
      exact hc.fixed hknown hphi
    · exact h.fixed x c₀ m' hx hm' hphi
  · intro x c₀ m hx hm hphi
    obtain ⟨m', hm', hinst, -, -⟩ := hnodes hm
    rw [hinst] at hphi ⊢
    obtain ⟨rfl, hknown, rfl⟩ | hx := hlearn x c₀ hx
    · obtain rfl : n = m' := by simpa [hn] using hm'
      obtain ⟨y, hy, hκ⟩ := hc.fed hknown hphi
      exact ⟨y, hy, hext y _ hκ⟩
    · obtain ⟨y, hy, hκ⟩ := h.fed x c₀ m' hx hm' hphi
      exact ⟨y, hy, hext y _ hκ⟩
  · intro x m hm hplain
    obtain ⟨m', hm', hinst, -, hcur⟩ := hnodes hm
    rw [hinst] at hplain ⊢
    rw [hcur]
    split
    · rename_i hxd
      subst hxd
      obtain rfl : n = m' := by simpa [hn] using hm'
      exact hc.plain hplain
    · exact h.plain x m' hm' hplain
  · intro b hb i hi m hm u hu
    obtain ⟨m', hm', -, huses, -⟩ := hnodes hm
    obtain ⟨m₂, hm₂, hu⟩ := h.uses b hb i hi m' hm' u (huses ▸ hu)
    refine ⟨_, by rw [FlowGraph.nodes_withNode, hm₂]; rfl, ?_⟩
    split <;> exact hu

theorem Refers.mapNodes {F : InstId → Node → Node} {f : InstId → Nat → InstId → InstId} {u : Use} {d : InstId}
    (h : Refers g u d) (hinst : ∀ j n, (F j n).inst = n.inst.mapArgs (f j)) :
    Refers (g.mapNodes F) u (f u.user u.index d) := by
  obtain ⟨m, hm, hu⟩ := h
  refine ⟨F u.user m, by rw [FlowGraph.nodes_mapNodes, hm]; rfl, ?_⟩
  rw [hinst, Inst.opcode_mapArgs, Inst.isAlivePhi_mapArgs, Inst.args_mapArgs, List.getElem?_mapIdx]
  exact hu.imp_right fun harg => by simp [harg]

theorem Tracked.mapNodes {F : InstId → Node → Node} (h : Tracked ctx start κ g)
    (hcls : ∀ j n, (F j n).cls = n.cls) (hinst : ∀ j n, ∃ f, (F j n).inst = n.inst.mapArgs f)
    (hfed : ∀ d c n, κ d = some c → g.nodes[d.index]? = some n → n.inst.isAlivePhi = true →
      ∃ x ∈ (F d n).inst.args, κ x = some c)
    (huses : ∀ b ∈ start.reversePostorder, ∀ i ∈ start.insts b, UsesSound (g.mapNodes F) i) :
    Tracked ctx start κ (g.mapNodes F) := by
  have hcurrent (j : InstId) (n : Node) : current (F j n) = current n := by
    obtain ⟨f, hf⟩ := hinst j n
    simp [current, hcls, Node.ownClass, hf]
  have hnodes {x : InstId} {m : Node} (hx : (g.mapNodes F).nodes[x.index]? = some m) :
      ∃ n, g.nodes[x.index]? = some n ∧ m = F x n := by
    rw [FlowGraph.nodes_mapNodes] at hx
    obtain ⟨n, hn, rfl⟩ := Option.map_eq_some_iff.mp hx
    exact ⟨n, hn, rfl⟩
  refine ⟨h.reaching, ?_, ?_, ?_, ?_, ?_, huses⟩
  · intro x m hx hknown
    obtain ⟨n, hn, rfl⟩ := hnodes hx
    rw [hcurrent] at hknown ⊢
    exact h.known x n hn hknown
  · intro x c hx
    obtain ⟨hknown, n, hn, hkeeps⟩ := h.keeps x c hx
    exact ⟨hknown, F x n, by simp [hn], by rwa [hcurrent]⟩
  · intro x c m hx hm hphi
    obtain ⟨n, hn, rfl⟩ := hnodes hm
    obtain ⟨f, hf⟩ := hinst x n
    rw [hf, Inst.isPhi_mapArgs] at hphi
    rw [hf, fixedClass_mapArgs]
    exact h.fixed x c n hx hn hphi
  · intro x c m hx hm hphi
    obtain ⟨n, hn, rfl⟩ := hnodes hm
    obtain ⟨f, hf⟩ := hinst x n
    rw [hf, Inst.isAlivePhi_mapArgs] at hphi
    exact hfed x c n hx hn hphi
  · intro x m hm hplain
    obtain ⟨n, hn, rfl⟩ := hnodes hm
    obtain ⟨f, hf⟩ := hinst x n
    rw [hf, isPlain_mapArgs] at hplain
    rw [hcurrent, hf, Inst.resultClass_mapArgs]
    exact h.plain x n hn hplain

theorem Tracked.redirected {old new : InstId} {n : Node} (h : Tracked ctx start κ g)
    (hn : g.nodes[old.index]? = some n) (hold : UsesSound g old)
    (hκ : ∀ c, κ old = some c → κ new = some c) :
    Tracked ctx start κ (g.redirected old new n.inputUses n.envUses) := by
  have hforget : g.redirected old new n.inputUses n.envUses = g.mapNodes fun j m =>
      ((m.redirectInputs n.inputUses new j).redirectEnv n.envUses new j).takeOver old new n.inputUses
        n.envUses j := by
    simp [FlowGraph.redirected, FlowGraph.forgetUses, FlowGraph.mapNodes, h.reaching]
  have hinst (j : InstId) (m : Node) : (((m.redirectInputs n.inputUses new j).redirectEnv n.envUses new
      j).takeOver old new n.inputUses n.envUses j).inst =
      m.inst.mapArgs fun k a => if ⟨j, k⟩ ∈ n.inputUses then new else a := by
    unfold Node.takeOver
    split_ifs <;> rfl
  rw [hforget]
  refine h.mapNodes ?_ (fun j m => ⟨_, hinst j m⟩) ?_ ?_
  · intro j m
    unfold Node.takeOver
    split_ifs <;> rfl
  · intro d c m hd hm halive
    obtain ⟨x, hx, hκx⟩ := h.fed d c m hd hm halive
    obtain ⟨k, hk⟩ := List.getElem?_of_mem hx
    rw [hinst, Inst.args_mapArgs]
    refine ⟨if ⟨d, k⟩ ∈ n.inputUses then new else x, List.mem_of_getElem? (i := k) (by simp [hk]), ?_⟩
    split
    · rename_i hu
      obtain ⟨m', hm', hdead | hxo⟩ := hold n hn ⟨d, k⟩ hu
      · obtain rfl : m = m' := by simpa [hm] using hm'
        simp [halive] at hdead
      · obtain rfl : m = m' := by simpa [hm] using hm'
        obtain rfl : x = old := by simpa [hk] using hxo
        exact hκ c hκx
    · exact hκx
  · intro b hb i hi m hm u hu
    rw [FlowGraph.nodes_mapNodes] at hm
    obtain ⟨m, hold_m, rfl⟩ := Option.map_eq_some_iff.mp hm
    have hrefers {d : InstId} (hu : Refers g u d) : Refers (g.mapNodes _) u
        (if u ∈ n.inputUses then new else d) := hu.mapNodes hinst
    have hown (hu : u ∈ m.inputUses) := h.uses b hb i hi m hold_m u hu
    unfold Node.takeOver at hu
    split_ifs at hu with hio hin
    · simp at hu
    · obtain hu | hu := List.mem_append.mp hu
      · simpa [hin] using hrefers (hown hu)
      · simpa [hu, hin] using hrefers (hold n hn u hu)
    · have hu : u ∈ m.inputUses := hu
      by_cases hlisted : u ∈ n.inputUses
      · obtain ⟨m₂, hm₂, hdead⟩ := (hown hu).of_ne (hold n hn u hlisted) hio
        refine ⟨_, by rw [FlowGraph.nodes_mapNodes, hm₂]; rfl, .inl ?_⟩
        rwa [hinst, Inst.opcode_mapArgs, Inst.isAlivePhi_mapArgs]
      · simpa [hlisted] using hrefers (hown hu)

theorem Tracked.withLayout {l : Layout} (h : Tracked ctx start κ g) : Tracked ctx start κ (g.withLayout l) :=
  ⟨h.reaching, h.known, h.keeps, h.fixed, h.fed, h.plain, h.uses⟩

theorem Tracked.removed {i : InstId} {n : Node} {b : BlockId} (h : Tracked ctx start κ g) :
    Tracked ctx start κ (g.removed i n b) := by
  refine Tracked.withLayout ?_
  rw [FlowGraph.withNode, FlowGraph.mapNodes_mapNodes]
  have hsame (j : InstId) (m : Node) (us es : List (InstId × Use)) :
      (if j = i then { m.dropUses us es j with block := none } else m.dropUses us es j).inst = m.inst := by
    split <;> rfl
  refine h.mapNodes (fun j m => by split <;> rfl) (fun j m => ⟨_, by rw [hsame, Inst.mapArgs_id]⟩) ?_ ?_
  · intro d c m hd hm halive
    rw [hsame]
    exact h.fed d c m hd hm halive
  · intro b hb j hj m hm u hu
    rw [FlowGraph.nodes_mapNodes] at hm
    obtain ⟨m, hold_m, rfl⟩ := Option.map_eq_some_iff.mp hm
    have hlisted : u ∈ m.inputUses := by
      split at hu <;> exact List.mem_of_mem_filter hu
    exact (h.uses b hb j hj m hold_m u hlisted).mapNodes (f := fun _ _ a => a)
      fun j m => by rw [hsame, Inst.mapArgs_id]

/-- A new constant is known to have the class of its value. -/
theorem Tracked.withInitial {c : Constant} (h : Tracked ctx start κ g) (hc : IsKnown c.classId) :
    Extends κ (learn κ g.nextId c.classId) ∧
      Tracked ctx start (learn κ g.nextId c.classId) (g.withInitial (.constant c)) := by
  have hnew : κ g.nextId = none := by
    refine Option.eq_none_iff_forall_not_mem.mpr fun c' hc' => ?_
    obtain ⟨-, n, hn, -⟩ := h.keeps _ c' hc'
    simp [FlowGraph.nextId] at hn
  have hext : Extends κ (learn κ g.nextId c.classId) := by
    intro d c' hd
    have hne : d ≠ g.nextId := fun h => by simp [h, hnew] at hd
    simp [learn, hne, hd]
  have hlearn {d : InstId} {c' : ClassId} (hd : learn κ g.nextId c.classId d = some c') :
      (d = g.nextId ∧ c' = c.classId) ∨ (d ≠ g.nextId ∧ κ d = some c') := by
    unfold learn at hd
    by_cases hdn : d = g.nextId
    · exact .inl ⟨hdn, by simpa [hdn, hc, eq_comm] using hd⟩
    · exact .inr ⟨hdn, by simpa [hdn] using hd⟩
  have hnodes {d : InstId} {m : Node} (hd : (g.withInitial (.constant c)).nodes[d.index]? = some m) :
      (d = g.nextId ∧ m.inst = .constant c ∧ m.inputUses = [] ∧ current m = c.classId) ∨
        (d ≠ g.nextId ∧ g.nodes[d.index]? = some m) := by
    rw [FlowGraph.nodes_withInitial] at hd
    split at hd
    · rename_i hdn
      obtain rfl := Option.some.inj hd
      exact .inl ⟨hdn, rfl, rfl, rfl⟩
    · rename_i hdn
      exact .inr ⟨hdn, hd⟩
  refine ⟨hext, h.reaching, ?_, ?_, ?_, ?_, ?_, ?_⟩
  · intro d m hd hknown
    obtain ⟨rfl, -, -, hcur⟩ | ⟨-, hm⟩ := hnodes hd
    · simp [learn, hcur, hc]
    · exact hext d _ (h.known d m hm hknown)
  · intro d c' hd
    obtain ⟨rfl, rfl⟩ | ⟨-, hd⟩ := hlearn hd
    · exact ⟨hc, _, by rw [FlowGraph.nodes_withInitial, if_pos rfl], .inl rfl⟩
    · obtain ⟨hknown, m, hm, hkeeps⟩ := h.keeps d c' hd
      exact ⟨hknown, m, FlowGraph.nodes_withInitial_of_some hm, hkeeps⟩
  · intro d c' m hd hm hphi
    obtain ⟨rfl, rfl⟩ | ⟨hdn, hd⟩ := hlearn hd
    · obtain ⟨-, hinst, -, -⟩ | ⟨hne, -⟩ := hnodes hm
      · simp [hinst, fixedClass, Inst.resultClass]
      · exact absurd rfl hne
    · exact h.fixed d c' m hd ((hnodes hm).resolve_left fun h => hdn h.1).2 hphi
  · intro d c' m hd hm halive
    obtain ⟨rfl, rfl⟩ | ⟨hdn, hd⟩ := hlearn hd
    · obtain ⟨-, hinst, -, -⟩ | ⟨hne, -⟩ := hnodes hm
      · simp [hinst, Inst.isAlivePhi] at halive
      · exact absurd rfl hne
    · obtain ⟨x, hx, hκ⟩ := h.fed d c' m hd ((hnodes hm).resolve_left fun h => hdn h.1).2 halive
      exact ⟨x, hx, hext x c' hκ⟩
  · intro d m hm hplain
    obtain ⟨-, hinst, -, hcur⟩ | ⟨-, hm⟩ := hnodes hm
    · rw [hcur, hinst]
      rfl
    · exact h.plain d m hm hplain
  · intro b hb i hi m hm u hu
    obtain ⟨-, -, huses, -⟩ | ⟨-, hm⟩ := hnodes hm
    · simp [huses] at hu
    · obtain ⟨m₂, hm₂, hu⟩ := h.uses b hb i hi m hm u hu
      exact ⟨m₂, FlowGraph.nodes_withInitial_of_some hm₂, hu⟩

end Midend.Classes

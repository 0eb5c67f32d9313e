import Midend.Proofs.Graph.Layout
import Midend.Proofs.Graph.Nodes

/-! # Edits of uses

What becomes of a graph when the uses of a definition are redirected to another one, and when an instruction
is taken out.
-/

namespace Midend

/-! ## Lists of uses -/

namespace Edit

variable {us : List (InstId × Use)} {i d : InstId} {u : Use}

def usesOf (us : List (InstId × Use)) (d : InstId) : List Use := us.filterMap fun v =>
    if v.1 = d then some v.2 else none

theorem mem_usesOf : u ∈ usesOf us d ↔ (d, u) ∈ us := by
  unfold usesOf
  rw [List.mem_filterMap]
  constructor
  · rintro ⟨⟨e, v⟩, hmem, hv⟩
    simp only [Option.ite_none_right_eq_some, Option.some_inj] at hv
    obtain ⟨rfl, rfl⟩ := hv
    exact hmem
  · intro hmem
    exact ⟨(d, u), hmem, by simp⟩

theorem usesOf_concat (v : InstId × Use) : usesOf (us ++ [v]) d = usesOf us d ++ if v.1 = d then [v.2] else [] := by
  unfold usesOf
  rw [List.filterMap_append]
  congr 1
  by_cases h : v.1 = d <;> simp [h]

theorem mem_usesBy {ds : List InstId} : (d, u) ∈ usesBy i ds ↔ u.user = i ∧ ds[u.index]? = some d := by
  unfold usesBy
  simp only [List.mem_map, Prod.mk.injEq, Prod.exists]
  constructor
  · rintro ⟨e, k, hmem, rfl, rfl⟩
    exact ⟨rfl, List.mk_mem_zipIdx_iff_getElem?.mp hmem⟩
  · rintro ⟨rfl, hget⟩
    exact ⟨d, u.index, List.mk_mem_zipIdx_iff_getElem?.mpr hget, rfl, rfl⟩

end Edit

/-! ## Redirecting uses -/

def Node.redirectInputs (us : List Use) (new j : InstId) (n : Node) : Node :=
  { n with inst := n.inst.mapArgs fun k a => if ⟨j, k⟩ ∈ us then new else a }

def Node.redirectEnv (us : List Use) (new j : InstId) (n : Node) : Node :=
  { n with env := n.env.map fun e =>
      { e with values := e.values.mapIdx fun k v => if ⟨j, k⟩ ∈ us then new else v } }

theorem Node.redirectInputs_concat (us : List Use) (u : Use) (new j : InstId) (n : Node) :
    n.redirectInputs (us ++ [u]) new j = if j = u.user then
      { n.redirectInputs us new j with inst := (n.redirectInputs us new j).inst.setArg u.index new }
    else n.redirectInputs us new j := by
  unfold redirectInputs
  by_cases hj : j = u.user
  · simp only [if_pos hj, Inst.setArg_eq, Inst.mapArgs_mapArgs]
    congr 2
    funext k a
    have hu : (⟨j, k⟩ : Use) = u ↔ k = u.index := by cases u; simp_all
    simp only [List.mem_append, List.mem_singleton, hu]
    by_cases hk : k = u.index <;> simp [hk]
  · simp only [if_neg hj]
    congr 2
    funext k a
    have hu : (⟨j, k⟩ : Use) ≠ u := fun h => hj (by rw [← h])
    simp [hu]

theorem Node.redirectEnv_nil (new j : InstId) (n : Node) : n.redirectEnv [] new j = n := by
  have hvalues (vs : List InstId) : (vs.mapIdx fun _ v => v) = vs := by simp [List.mapIdx_eq_zipIdx_map]
  simp [redirectEnv, hvalues]

theorem Node.redirectEnv_concat (us : List Use) (u : Use) (new j : InstId) (n : Node) :
    n.redirectEnv (us ++ [u]) new j = if j = u.user then
      { n.redirectEnv us new j with env := (n.redirectEnv us new j).env.map fun e =>
        { e with values := e.values.set u.index new } }
    else n.redirectEnv us new j := by
  unfold redirectEnv
  by_cases hj : j = u.user
  · simp only [if_pos hj, Option.map_map]
    congr 2
    funext e
    simp only [Function.comp_apply, Environment.mk.injEq, and_true]
    refine List.ext_getElem? fun k => ?_
    have hu : (⟨j, k⟩ : Use) = u ↔ u.index = k := by cases u; simp_all [eq_comm]
    rw [List.getElem?_set, List.getElem?_mapIdx, List.getElem?_mapIdx]
    simp only [List.mem_append, List.mem_singleton, hu, List.length_mapIdx]
    by_cases hk : u.index = k
    · subst hk
      cases hv : e.values[u.index]? with
      | none => simp [List.getElem?_eq_none_iff.mp hv]
      | some v => simp [(List.getElem?_eq_some_iff.mp hv).1]
    · simp [hk]
  · simp only [if_neg hj]
    congr 2
    funext e
    have hu (k : Nat) : (⟨j, k⟩ : Use) ≠ u := fun h => hj (by rw [← h])
    simp [hu]

def Node.takeOver (old new : InstId) (us es : List Use) (j : InstId) (n : Node) : Node :=
  if j = old then { n with inputUses := [], envUses := [] }
  else if j = new then { n with inputUses := n.inputUses ++ us, envUses := n.envUses ++ es }
  else n

namespace FlowGraph

variable {g : FlowGraph}

/-- The graph without the classes that were known to reach the uses `us`. -/
def forgetUses (g : FlowGraph) (us : List Use) : FlowGraph :=
  { g with reaching := g.reaching.filter (·.1 ∉ us) }

theorem reachingClass?_forgetUses (us : List Use) (u : Use) :
    (g.forgetUses us).reachingClass? u = if u ∈ us then none else g.reachingClass? u := by
  unfold reachingClass? forgetUses
  dsimp only
  induction g.reaching with
  | nil => simp
  | cons e r ih =>
    obtain ⟨v, c⟩ := e
    by_cases huv : u = v
    · subst huv
      by_cases hu : u ∈ us
      · simpa [hu] using ih
      · simp [hu]
    · have hne : (u == v) = false := beq_eq_false_iff_ne.mpr huv
      by_cases hv : v ∈ us <;> simpa [List.filter_cons, hv, List.lookup_cons, hne] using ih

@[simp] theorem nodes_forgetUses (us : List Use) : (g.forgetUses us).nodes = g.nodes := rfl

@[simp] theorem mapNodes_forgetUses (us : List Use) (f : InstId → Node → Node) :
    (g.forgetUses us).mapNodes f = (g.mapNodes f).forgetUses us := rfl

@[simp] theorem withNode_forgetUses (us : List Use) (i : InstId) (f : Node → Node) :
    (g.forgetUses us).withNode i f = (g.withNode i f).forgetUses us := rfl

/-- The graph in which `new` stands in for `old` at the uses `us` and `es`. -/
def redirected (g : FlowGraph) (old new : InstId) (us es : List Use) : FlowGraph :=
  (g.mapNodes fun j n =>
    ((n.redirectInputs us new j).redirectEnv es new j).takeOver old new us es j).forgetUses us

/-- The uses that are listed for `n` are places that exist. -/
structure UsesExist (g : FlowGraph) (n : Node) : Prop where
  inputs : ∀ u ∈ n.inputUses, ∃ m, g.nodes[u.user.index]? = some m ∧ u.index < m.inst.args.length
  envs : ∀ u ∈ n.envUses, ∃ m, g.nodes[u.user.index]? = some m ∧
    ∀ e, m.env = some e → u.index < e.values.length

end FlowGraph

namespace Leads

variable {fault : Prop} {g : FlowGraph}

theorem setArgQuietly_iff {user d : InstId} {k : Nat} {post : PUnit → FlowGraph → Prop} :
    Leads fault g (Edit.setArgQuietly user k d) post ↔
      (∀ n, g.nodes[user.index]? = some n → k < n.inst.args.length →
        post ⟨⟩ (g.withNode user fun n => { n with inst := n.inst.setArg k d })) ∧
      ((∀ n, g.nodes[user.index]? = some n → n.inst.args.length ≤ k) → fault) := by
  unfold Edit.setArgQuietly Edit.setInst
  simp only [bind_iff, get_iff, lift_iff, FlowGraph.inst, FlowGraph.node, Yields.bind_iff,
    Yields.orFault_iff, Yields.pure_iff, ite_iff, modifyNode_iff, throw_iff, Nat.not_lt]
  cases hn : g.nodes[user.index]? with
  | none => simp
  | some n =>
    have hlt : user.index < g.nodes.size := (Array.getElem?_eq_some_iff.mp hn).1
    have hsame : (g.withNode user fun m => { m with inst := n.inst.setArg k d }) =
        g.withNode user fun m => { m with inst := m.inst.setArg k d } := by
      refine FlowGraph.mapNodes_congr fun j m hm => ?_
      by_cases hj : j = user
      · subst hj
        obtain rfl : n = m := by simpa [hn] using hm
        rfl
      · simp [hj]
    simp only [hsame, Option.some.injEq, forall_eq', reduceCtorEq, false_implies, and_true,
      Nat.not_le.mpr hlt, hlt, true_implies]

theorem redirectInputs {us : List Use} {new : InstId}
    (hok : ¬ fault → ∀ u ∈ us, ∃ m, g.nodes[u.user.index]? = some m ∧ u.index < m.inst.args.length) :
    Leads fault g (us.forM fun u => do
        Edit.setArgQuietly u.user u.index new
        Edit.forgetReaching u)
      fun _ g' => g' = (g.mapNodes fun j n => n.redirectInputs us new j).forgetUses us := by
  refine forM (fun done g' => g' = (g.mapNodes fun j n => n.redirectInputs done new j).forgetUses done)
    (by simp [Node.redirectInputs, FlowGraph.forgetUses]) ?_
  rintro done u rest g' hus rfl
  simp only [bind_iff, setArgQuietly_iff, Edit.forgetReaching, modify_iff]
  refine ⟨fun n hn hk => ?_, fun hbad => ?_⟩
  · simp only [Node.redirectInputs_concat, FlowGraph.withNode, FlowGraph.mapNodes, FlowGraph.forgetUses,
      Array.mapIdx_mapIdx, List.filter_filter]
    congr 1
    refine List.filter_congr fun r _ => ?_
    simp [and_comm, bne, beq_eq_decide]
  · by_contra hfault
    obtain ⟨m, hm, hlt⟩ := hok hfault u (by simp [hus])
    have := hbad (m.redirectInputs done new u.user) (by simpa using ⟨m, hm, rfl⟩)
    simp [Node.redirectInputs] at this
    omega

theorem setEnvValue {user d : InstId} {k : Nat}
    (hok : ¬ fault → ∃ m, g.nodes[user.index]? = some m ∧ ∀ e, m.env = some e → k < e.values.length) :
    Leads fault g (Edit.setEnvValue user k d) fun _ g' => g' = g.withNode user fun n =>
      { n with env := n.env.map fun e => { e with values := e.values.set k d } } := by
  unfold Edit.setEnvValue
  simp only [bind_iff, get_iff, lift_iff, FlowGraph.env, FlowGraph.node, Yields.bind_iff, Yields.orFault_iff,
    Yields.pure_iff]
  refine ⟨fun n hn => ?_, fun hnone => ?_⟩
  · have hlt : user.index < g.nodes.size := (Array.getElem?_eq_some_iff.mp hn).1
    cases he : n.env with
    | none =>
      rw [pure_iff, FlowGraph.withNode]
      refine FlowGraph.mapNodes_id.symm.trans (FlowGraph.mapNodes_congr fun j m hm => ?_)
      by_cases hj : j = user
      · subst hj
        obtain rfl : n = m := by simpa [hn] using hm
        cases n
        simp_all
      · simp [hj]
    | some e =>
      simp only [Environment.setValueAt]
      by_cases hk : k < e.values.length
      · simp only [hk, if_true, bind_iff, lift_iff, Yields.ok_iff, modifyNode_iff, Nat.not_le.mpr hlt,
          false_implies, and_true]
        refine fun _ => FlowGraph.mapNodes_congr fun j m hm => ?_
        by_cases hj : j = user
        · subst hj
          obtain rfl : n = m := by simpa [hn] using hm
          simp [he]
        · simp [hj]
      · simp only [hk, if_false, bind_iff, lift_iff, Yields.error_iff]
        by_contra hfault
        obtain ⟨m, hm, hlen⟩ := hok hfault
        obtain rfl : n = m := by simpa [hn] using hm
        exact hk (hlen e he)
  · by_contra hfault
    obtain ⟨m, hm, -⟩ := hok hfault
    simp [hm] at hnone

theorem redirectEnvs {us : List Use} {new : InstId}
    (hok : ¬ fault → ∀ u ∈ us, ∃ m, g.nodes[u.user.index]? = some m ∧
      ∀ e, m.env = some e → u.index < e.values.length) :
    Leads fault g (us.forM fun u => Edit.setEnvValue u.user u.index new)
      fun _ g' => g' = g.mapNodes fun j n => n.redirectEnv us new j := by
  refine forM (fun done g' => g' = g.mapNodes fun j n => n.redirectEnv done new j)
    (by simp [Node.redirectEnv_nil]) ?_
  rintro done u rest g' hus rfl
  refine (setEnvValue fun hfault => ?_).mono fun _ g' hg' => ?_
  · obtain ⟨m, hm, hlen⟩ := hok hfault u (by simp [hus])
    refine ⟨m.redirectEnv done new u.user, by simp [hm], fun e he => ?_⟩
    obtain ⟨e', he', rfl⟩ := Option.map_eq_some_iff.mp he
    simpa using hlen e' he'
  · simp only [hg', FlowGraph.withNode, FlowGraph.mapNodes_mapNodes, Node.redirectEnv_concat]

theorem replaceUses {old new : InstId} {n : Node} (hn : g.nodes[old.index]? = some n) (hne : old ≠ new)
    (hok : ¬ fault → new.index < g.nodes.size ∧ g.UsesExist n) :
    Leads fault g (Edit.replaceUses old new)
      fun _ g' => g' = g.redirected old new n.inputUses n.envUses := by
  have hlt : old.index < g.nodes.size := (Array.getElem?_eq_some_iff.mp hn).1
  unfold Edit.replaceUses
  simp only [if_neg hne, bind_iff, get_iff, lift_iff, FlowGraph.inputUses, FlowGraph.envUses, FlowGraph.node,
    Yields.bind_iff, Yields.orFault_iff, Yields.pure_iff, modifyNode_iff, hn, Option.some.injEq, forall_eq',
    hlt, Nat.not_le.mpr hlt, true_implies, false_implies, reduceCtorEq, and_true]
  refine (redirectInputs fun hfault u hu => ?_).mono ?_
  · obtain ⟨m, hm, hk⟩ := (hok hfault).2.inputs u hu
    exact ⟨_, by rw [FlowGraph.nodes_withNode, hm]; rfl, by split <;> exact hk⟩
  rintro _ _ rfl
  simp only [FlowGraph.withNode_forgetUses, FlowGraph.nodes_forgetUses, FlowGraph.size_withNode,
    FlowGraph.size_mapNodes, hlt, Nat.not_le.mpr hlt, true_implies, false_implies, and_true]
  refine ⟨fun hnew => ⟨?_, fun h => ?_⟩, fun hnew => ?_⟩
  · intro m hm
    have henv : m.envUses = n.envUses := by
      simp [FlowGraph.nodes_withNode, hn, hne] at hm
      simp [← hm, Node.redirectInputs]
    simp only [henv]
    refine (redirectEnvs fun hfault u hu => ?_).mono ?_
    · obtain ⟨m, hm, hk⟩ := (hok hfault).2.envs u hu
      simp only [FlowGraph.nodes_forgetUses, FlowGraph.nodes_withNode, FlowGraph.nodes_mapNodes, hm,
        Option.map_some]
      refine ⟨_, rfl, fun e he => hk e ?_⟩
      rw [← he]
      split_ifs <;> rfl
    rintro _ _ rfl
    simp only [FlowGraph.withNode_forgetUses, FlowGraph.mapNodes_forgetUses, FlowGraph.nodes_forgetUses,
      FlowGraph.size_withNode, FlowGraph.size_mapNodes, hnew, Nat.not_le.mpr hnew, true_implies,
      false_implies, and_true]
    refine congrArg (FlowGraph.forgetUses · n.inputUses) ?_
    simp only [FlowGraph.withNode, FlowGraph.mapNodes_mapNodes]
    refine FlowGraph.mapNodes_congr fun j m _ => ?_
    unfold Node.takeOver
    by_cases hj : j = old
    · subst hj
      simp [hne, Node.redirectEnv, Node.redirectInputs]
    · by_cases hj' : j = new
      · subst hj'
        simp [Ne.symm hne, Node.redirectEnv, Node.redirectInputs]
      · simp [hj, hj']
  · simp [FlowGraph.nodes_withNode, hn] at h
  · by_contra hfault
    exact Nat.not_le.mpr (hok hfault).1 hnew

/-- What has become of a graph, if redirecting uses did not stop with a fault. -/
theorem replaceUses_of_ok {old new : InstId} : Leads True g (Edit.replaceUses old new) fun _ g' =>
    (old = new ∧ g' = g) ∨
      ∃ n, g.nodes[old.index]? = some n ∧ g' = g.redirected old new n.inputUses n.envUses := by
  by_cases hne : old = new
  · simp [Edit.replaceUses, hne]
  cases hn : g.nodes[old.index]? with
  | none =>
    simp [Edit.replaceUses, hne, FlowGraph.inputUses, FlowGraph.node, hn, orFault]
  | some n => exact (replaceUses hn hne fun h => absurd trivial h).mono fun _ g' hg' => .inr ⟨n, rfl, hg'⟩

end Leads

/-! ## Taking instructions out -/

/-- Without the given uses, each with the definition it is a use of. -/
def Node.dropUses (us es : List (InstId × Use)) (j : InstId) (n : Node) : Node :=
  { n with
    inputUses := n.inputUses.filter fun u => (j, u) ∉ us
    envUses := n.envUses.filter fun u => (j, u) ∉ es }

/-- The values that resuming at the instruction needs. -/
def Node.envValues (n : Node) : List InstId := (n.env.map Environment.values).getD []

namespace FlowGraph

def removed (g : FlowGraph) (i : InstId) (n : Node) (b : BlockId) : FlowGraph :=
  ((g.mapNodes fun j m =>
    m.dropUses (Edit.usesBy i n.inst.args) (Edit.usesBy i n.envValues) j).withNode i
      fun m => { m with block := none }).withLayout (g.layout.unplace i b)

end FlowGraph

namespace Leads

variable {fault : Prop} {g : FlowGraph}

theorem filter_concat {us : List (InstId × Use)} {d j : InstId} {u : Use} (vs : List Use) :
    (vs.filter fun v => (j, v) ∉ us ++ [(d, u)]) =
      if j = d then (vs.filter fun v => (j, v) ∉ us).filter (· != u) else vs.filter fun v => (j, v) ∉ us := by
  by_cases hj : j = d
  · subst hj
    rw [if_pos rfl, List.filter_filter]
    refine List.filter_congr fun v _ => ?_
    simp [and_comm, bne, beq_eq_decide]
  · simp [hj]

theorem args_iff {i : InstId} {post : List InstId → Prop} :
    Yields fault (g.args i) post ↔
      (∀ n, g.nodes[i.index]? = some n → post n.inst.args) ∧ (g.nodes[i.index]? = none → fault) := by
  simp only [FlowGraph.args, FlowGraph.inst, FlowGraph.node, Yields.bind_iff, Yields.orFault_iff,
    Yields.pure_iff]

theorem envValues_iff {i : InstId} {post : List InstId → FlowGraph → Prop} :
    Leads fault g (Edit.envValues i) post ↔
      (∀ n, g.nodes[i.index]? = some n → post n.envValues g) ∧ (g.nodes[i.index]? = none → fault) := by
  unfold Edit.envValues
  simp only [bind_iff, get_iff, lift_iff, FlowGraph.env, FlowGraph.node, Yields.bind_iff, Yields.orFault_iff,
    Yields.pure_iff]
  refine and_congr_left fun _ => forall₂_congr fun n _ => ?_
  unfold Node.envValues
  cases n.env <;> rfl

theorem dropInputUses {i : InstId} {n : Node} (hn : g.nodes[i.index]? = some n) :
    Leads fault g (Edit.dropInputUses i)
      fun _ g' => g' = g.mapNodes fun j m => m.dropUses (Edit.usesBy i n.inst.args) [] j := by
  unfold Edit.dropInputUses
  simp only [bind_iff, get_iff, lift_iff, args_iff, hn, Option.some.injEq, forall_eq', reduceCtorEq,
    false_implies, and_true]
  refine forM (fun done g' => g' = g.mapNodes fun j n => n.dropUses done [] j) (by simp [Node.dropUses]) ?_
  rintro done ⟨d, u⟩ rest g' hus rfl
  simp only [Edit.dropInputUse, modifyNode?_iff, FlowGraph.withNode, FlowGraph.mapNodes_mapNodes]
  refine FlowGraph.mapNodes_congr fun j n _ => ?_
  simp only [Node.dropUses, filter_concat]
  split <;> rfl

theorem dropEnvUses {i : InstId} {n : Node} (hn : g.nodes[i.index]? = some n) :
    Leads fault g (Edit.dropEnvUses i)
      fun _ g' => g' = g.mapNodes fun j m => m.dropUses [] (Edit.usesBy i n.envValues) j := by
  unfold Edit.dropEnvUses
  simp only [bind_iff, envValues_iff, hn, Option.some.injEq, forall_eq', reduceCtorEq, false_implies, and_true]
  refine forM (fun done g' => g' = g.mapNodes fun j n => n.dropUses [] done j) (by simp [Node.dropUses]) ?_
  rintro done ⟨d, u⟩ rest g' hus rfl
  simp only [Edit.dropEnvUse, modifyNode?_iff, FlowGraph.withNode, FlowGraph.mapNodes_mapNodes]
  refine FlowGraph.mapNodes_congr fun j n _ => ?_
  simp only [Node.dropUses, filter_concat]
  split <;> rfl

theorem hasUses_iff {i : InstId} {post : Bool → Prop} :
    Yields fault (g.hasUses i) post ↔
      (∀ n, g.nodes[i.index]? = some n → post (!n.inputUses.isEmpty || !n.envUses.isEmpty)) ∧
      (g.nodes[i.index]? = none → fault) := by
  simp only [FlowGraph.hasUses, FlowGraph.node, Yields.bind_iff, Yields.orFault_iff, Yields.pure_iff]

theorem remove {i : InstId} {n : Node} (hn : g.nodes[i.index]? = some n)
    (hok : ¬ fault → n.inputUses = [] ∧ n.envUses = [] ∧ g.isPlaced i = true) :
    Leads fault g (Edit.remove i) fun _ g' =>
      n.inputUses = [] ∧ n.envUses = [] ∧ ∃ b, g.layout.home? i = some b ∧ g' = g.removed i n b := by
  have hlt : i.index < g.nodes.size := (Array.getElem?_eq_some_iff.mp hn).1
  unfold Edit.remove Edit.setBlock
  simp only [bind_iff, get_iff, lift_iff, hasUses_iff, hn, Option.some.injEq, forall_eq', reduceCtorEq,
    false_implies, and_true, ite_iff, throw_iff, onLayout_iff]
  refine ⟨fun hused => ?_, fun hunused => ?_⟩
  · rw [FlowGraph.inputUses, Yields.bind_iff, FlowGraph.node, hn]
    by_contra hfault
    obtain ⟨hin, henv, -⟩ := hok hfault
    simp [hin, henv] at hused
  · obtain ⟨hin, henv⟩ : n.inputUses = [] ∧ n.envUses = [] := by simpa using hunused
    refine (dropInputUses hn).mono ?_
    rintro _ _ rfl
    refine (dropEnvUses (n := n.dropUses (Edit.usesBy i n.inst.args) [] i) (by simp [hn])).mono ?_
    rintro _ _ rfl
    have hdrop (j : InstId) (m : Node) : (m.dropUses (Edit.usesBy i n.inst.args) [] j).dropUses []
        (Edit.usesBy i n.envValues) j = m.dropUses (Edit.usesBy i n.inst.args) (Edit.usesBy i n.envValues) j := by
      simp [Node.dropUses]
    have hsame : (n.dropUses (Edit.usesBy i n.inst.args) [] i).envValues = n.envValues := rfl
    simp only [FlowGraph.mapNodes_mapNodes, hsame, hdrop, FlowGraph.layout_mapNodes]
    cases hl : g.layout.remove i with
    | error e =>
      by_contra hfault
      obtain ⟨b, hb⟩ := Layout.isPlaced_iff.mp (hok hfault).2.2
      rw [Layout.remove_eq_ok.mpr ⟨b, hb, rfl⟩] at hl
      simp at hl
    | ok l =>
      obtain ⟨b, hb, rfl⟩ := Layout.remove_eq_ok.mp hl
      simp only [Yields.ok_iff, modifyNode_iff, FlowGraph.nodes_withLayout, FlowGraph.size_mapNodes, hlt,
        Nat.not_le.mpr hlt, true_implies, false_implies, and_true]
      exact ⟨hin, henv, b, hb, rfl⟩

theorem remove_of_ok {i : InstId} : Leads True g (Edit.remove i) fun _ g' =>
    ∃ n b, g.nodes[i.index]? = some n ∧ g.layout.home? i = some b ∧ g' = g.removed i n b := by
  cases hn : g.nodes[i.index]? with
  | none => simp [Edit.remove, FlowGraph.hasUses, FlowGraph.node, hn, orFault]
  | some n =>
    refine (remove hn fun h => absurd trivial h).mono fun _ g' hg' => ?_
    obtain ⟨-, -, b, hb, rfl⟩ := hg'
    exact ⟨n, b, rfl, hb, rfl⟩

end Leads

end Midend

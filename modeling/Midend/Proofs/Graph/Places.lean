import Midend.Flow.Loops
import Midend.Proofs.Flow.Order
import Midend.Proofs.Graph.Initial

/-! # Where instructions are

Every instruction knows a block. However a graph was edited, an instruction that is on the list of a block knows that
block or none, and one that knows a block is on its list, among its phis or an initial definition.
-/

namespace Midend

variable {α β : Type}

/-! ## What edits keep -/

/-- The edit keeps what `inv` says, wherever it does not stop. -/
def Keeps (inv : FlowGraph → Prop) (m : Edit α) : Prop := ∀ g, inv g → Leads True g m fun _ g' => inv g'

namespace Keeps

variable {inv : FlowGraph → Prop}

theorem value (a : α) : Keeps inv (pure a : Edit α) := fun _ hg => hg

theorem fault (e : Fault) : Keeps inv (throw e : Edit α) := fun _ _ => trivial

theorem andThen {m : Edit α} {f : α → Edit β} (hm : Keeps inv m) (hf : ∀ a, Keeps inv (f a)) : Keeps inv (m >>= f) := by
  intro g hg
  rw [Leads.bind_iff]
  exact (hm g hg).mono fun a g' hg' => hf a g' hg'

theorem reading {f : FlowGraph → Edit α} (hf : ∀ g, Keeps inv (f g)) : Keeps inv ((get : Edit FlowGraph) >>= f) :=
  fun g hg => hf g g hg

theorem lifted {x : Except Fault α} : Keeps inv (liftM x : Edit α) := by
  intro g hg
  rw [Leads.lift_iff]
  exact Yields.of_ok fun _ _ => hg

theorem each {xs : List α} {f : α → Edit PUnit} (hf : ∀ a ∈ xs, Keeps inv (f a)) : Keeps inv (xs.forM f) :=
  fun _ hg => Leads.forM_of_forall inv hg fun a ha g' => hf a ha g'

theorem ignoring {m : Edit α} (hm : Keeps inv m) : Keeps inv (discard m) := by
  intro g hg
  rw [Leads.discard_iff]
  exact hm g hg

theorem either {c : Prop} [Decidable c] {m n : Edit α} (hm : Keeps inv m) (hn : Keeps inv n) :
    Keeps inv (if c then m else n) := by
  split
  · exact hm
  · exact hn

end Keeps

/-! ## Places -/

namespace FlowGraph

variable {g g' : FlowGraph} {i j : InstId} {b c : BlockId}

def HasPhi (g : FlowGraph) (b : BlockId) (i : InstId) : Prop := ∃ k, g.blocks[b.index]? = some k ∧ i ∈ k.phis

structure Located (g : FlowGraph) : Prop where
  sound : g.layout.Sound
  bounded : ∀ i b, g.layout.home? i = some b → i.index < g.nodes.size
  placed : ∀ i n b, g.nodes[i.index]? = some n → g.layout.home? i = some b → n.block = some b ∨ n.block = none
  recorded : ∀ i n b, g.nodes[i.index]? = some n → n.block = some b →
    g.layout.home? i = some b ∨ i ∈ g.initialDefinitions ∨ g.HasPhi b i
  phis : ∀ b i, g.HasPhi b i → i.index < g.nodes.size ∧
    ∀ n, g.nodes[i.index]? = some n → n.block = some b ∨ n.block = none ∨ ∃ c, g.layout.home? i = some c

-- The search for the four instances of the conjunction goes beyond the default size.
set_option synthInstance.maxSize 256 in
instance : Decidable g.Located :=
  decidable_of_iff (g.layout.Sound ∧
    (∀ i < g.layout.homes.slots.size, ∀ b ∈ g.layout.home? ⟨i⟩, i < g.nodes.size ∧
      ∀ n ∈ g.nodes[i]?, n.block = some b ∨ n.block = none) ∧
    (∀ i < g.nodes.size, ∀ n ∈ g.nodes[i]?, ∀ b ∈ n.block, g.layout.home? ⟨i⟩ = some b ∨
      (⟨i⟩ : InstId) ∈ g.initialDefinitions ∨ (⟨i⟩ : InstId) ∈ (g.blocks[b.index]?).elim [] Block.phis) ∧
    ∀ b < g.blocks.size, ∀ k ∈ g.blocks[b]?, ∀ i ∈ k.phis, i.index < g.nodes.size ∧
      ∀ n ∈ g.nodes[i.index]?, n.block = some ⟨b⟩ ∨ n.block = none ∨ (g.layout.home? i).isSome = true) <| by
    have hlt {i : InstId} {b : BlockId} (h : g.layout.home? i = some b) : i.index < g.layout.homes.slots.size := by
      by_contra hge
      simp [Layout.home?, SideTable.get?, Array.getElem?_eq_none (Nat.not_lt.mp hge)] at h
    constructor
    · rintro ⟨hsound, hhomes, hnodes, hphis⟩
      refine ⟨hsound, fun i b h => (hhomes i.index (hlt h) b h).1, fun i n b hn h =>
        (hhomes i.index (hlt h) b h).2 n hn, fun i n b hn hb => ?_, ?_⟩
      · obtain h | h | h := hnodes i.index (Array.getElem?_eq_some_iff.mp hn).1 n hn b hb
        · exact .inl h
        · exact .inr (.inl h)
        · refine .inr (.inr ?_)
          cases hk : g.blocks[b.index]? with
          | none => simp [hk] at h
          | some k => exact ⟨k, hk, by simpa [hk] using h⟩
      · rintro b i ⟨k, hk, hi⟩
        obtain ⟨hsize, hn⟩ := hphis b.index (Array.getElem?_eq_some_iff.mp hk).1 k hk i hi
        refine ⟨hsize, fun n hn' => ?_⟩
        rw [← Option.isSome_iff_exists]
        exact hn n hn'
    · intro h
      refine ⟨h.sound, fun i _ b hb => ⟨h.bounded ⟨i⟩ b hb, fun n hn => h.placed ⟨i⟩ n b hn hb⟩,
        fun i _ n hn b hb => ?_, fun b _ k hk i hi => ?_⟩
      · obtain h | h | ⟨k, hk, hi⟩ := h.recorded ⟨i⟩ n b hn hb
        · exact .inl h
        · exact .inr (.inl h)
        · exact .inr (.inr (by rwa [hk]))
      obtain ⟨hsize, hn⟩ := h.phis ⟨b⟩ i ⟨k, hk, hi⟩
      refine ⟨hsize, fun n hn' => ?_⟩
      rw [Option.isSome_iff_exists]
      exact hn n hn'

namespace Located

theorem mem_insts_iff (h : g.Located) : i ∈ g.insts b ↔ g.layout.home? i = some b := h.sound.mem_iff

theorem congr (h : g.Located) (hlayout : g'.layout = g.layout) (hsize : g'.nodes.size = g.nodes.size)
    (hinitial : g'.initialDefinitions = g.initialDefinitions)
    (hnodes : ∀ (i : InstId) n', g'.nodes[i.index]? = some n' → ∃ n, g.nodes[i.index]? = some n ∧ n'.block = n.block)
    (hphis : ∀ b i, g'.HasPhi b i ↔ g.HasPhi b i) : g'.Located where
  sound := hlayout ▸ h.sound
  bounded i b hb := by
    rw [hlayout] at hb
    rw [hsize]
    exact h.bounded i b hb
  placed i n' b hn' hb := by
    obtain ⟨n, hn, hblock⟩ := hnodes i n' hn'
    rw [hlayout] at hb
    rw [hblock]
    exact h.placed i n b hn hb
  recorded i n' b hn' hb := by
    obtain ⟨n, hn, hblock⟩ := hnodes i n' hn'
    rw [hblock] at hb
    rw [hlayout, hinitial, hphis]
    exact h.recorded i n b hn hb
  phis b i hi := by
    obtain ⟨hlt, hblock⟩ := h.phis b i ((hphis b i).mp hi)
    refine ⟨hsize ▸ hlt, fun n' hn' => ?_⟩
    obtain ⟨n, hn, heq⟩ := hnodes i n' hn'
    rw [heq, hlayout]
    exact hblock n hn

theorem mapNodes (h : g.Located) {f : InstId → Node → Node} (hf : ∀ i n, (f i n).block = n.block) :
    (g.mapNodes f).Located := by
  refine h.congr rfl size_mapNodes rfl (fun i n' hn' => ?_) fun _ _ => .rfl
  rw [nodes_mapNodes] at hn'
  obtain ⟨n, hn, rfl⟩ := Option.map_eq_some_iff.mp hn'
  exact ⟨n, hn, hf i n⟩

theorem withNode (h : g.Located) {f : Node → Node} (hf : ∀ n, (f n).block = n.block) : (g.withNode i f).Located := by
  refine h.mapNodes fun j n => ?_
  split
  · exact hf n
  · rfl

theorem hasPhi_withBlock {f : Block → Block} (hf : ∀ k, (f k).phis = k.phis) :
    (g.withBlock b f).HasPhi c i ↔ g.HasPhi c i := by
  unfold HasPhi
  rw [blocks_withBlock]
  cases g.blocks[c.index]? with
  | none => simp
  | some k => by_cases hc : c = b <;> simp [hc, hf]

theorem withBlock (h : g.Located) {f : Block → Block} (hf : ∀ k, (f k).phis = k.phis) : (g.withBlock b f).Located :=
  h.congr rfl rfl rfl (fun _ n hn => ⟨n, hn, rfl⟩) fun _ _ => hasPhi_withBlock hf

theorem withInst (h : g.Located) {n : Node} (hn : n.block = none) : (g.withInst n).Located where
  sound := h.sound
  bounded i b hb := by
    have := h.bounded i b hb
    rw [size_withInst]
    omega
  placed i m b hm hb := by
    have hlt := h.bounded i b hb
    rw [nodes_withInst, if_neg (by rintro rfl; exact Nat.lt_irrefl _ hlt)] at hm
    exact h.placed i m b hm hb
  recorded i m b hm hb := by
    rw [nodes_withInst] at hm
    split at hm
    · rw [← Option.some_inj.mp hm, hn] at hb
      cases hb
    · exact h.recorded i m b hm hb
  phis b i hi := by
    obtain ⟨hlt, hblock⟩ := h.phis b i hi
    refine ⟨by rw [size_withInst]; omega, fun m hm => ?_⟩
    rw [nodes_withInst, if_neg (by rintro rfl; exact Nat.lt_irrefl _ hlt)] at hm
    exact hblock m hm

theorem place (h : g.Located) (hfree : g.layout.home? i = none) (hi : i.index < g.nodes.size) {is : List InstId}
    (his : is.Perm (i :: g.layout.insts b)) {o : Option BlockId} (ho : o = some b ∨ o = none) :
    ((g.withLayout (g.layout.place i b is)).withNode i fun n => { n with block := o }).Located where
  sound := h.sound.place hfree his
  bounded j c hc := by
    have hc : (g.layout.place i b is).home? j = some c := hc
    rw [Layout.home?_place] at hc
    rw [size_withNode]
    split at hc
    case isTrue hj => exact hj ▸ hi
    case isFalse => exact h.bounded j c hc
  placed j m c hm hc := by
    have hc : (g.layout.place i b is).home? j = some c := hc
    rw [Layout.home?_place] at hc
    rw [nodes_withNode] at hm
    obtain ⟨n, hn, rfl⟩ := Option.map_eq_some_iff.mp hm
    by_cases hj : j = i
    · rw [if_pos hj] at hc
      simpa [hj, ← Option.some_inj.mp hc] using ho
    · rw [if_neg hj] at hc ⊢
      exact h.placed j n c hn hc
  recorded j m c hm hc := by
    show (g.layout.place i b is).home? j = some c ∨ _
    rw [Layout.home?_place]
    rw [nodes_withNode] at hm
    obtain ⟨n, hn, rfl⟩ := Option.map_eq_some_iff.mp hm
    by_cases hj : j = i
    · rw [if_pos hj] at hc
      have hoc : o = some c := hc
      obtain rfl : b = c := by simpa [hoc, eq_comm] using ho
      exact .inl (if_pos hj)
    · rw [if_neg hj] at hc ⊢
      exact h.recorded j n c hn hc
  phis c j hj := by
    obtain ⟨hlt, hblock⟩ := h.phis c j hj
    refine ⟨by rwa [size_withNode], fun m hm => ?_⟩
    show _ ∨ _ ∨ ∃ d, (g.layout.place i b is).home? j = some d
    rw [Layout.home?_place]
    rw [nodes_withNode] at hm
    obtain ⟨n, hn, rfl⟩ := Option.map_eq_some_iff.mp hm
    by_cases hji : j = i
    · exact .inr (.inr ⟨b, if_pos hji⟩)
    · rw [if_neg hji, if_neg hji]
      exact hblock n hn

theorem unplace (h : g.Located) (hb : g.layout.home? i = some b) :
    ((g.withLayout (g.layout.unplace i b)).withNode i fun n => { n with block := none }).Located where
  sound := h.sound.unplace hb
  bounded j c hc := by
    have hc : (g.layout.unplace i b).home? j = some c := hc
    rw [Layout.home?_unplace] at hc
    split at hc
    · cases hc
    · rw [size_withNode]
      exact h.bounded j c hc
  placed j m c hm hc := by
    have hc : (g.layout.unplace i b).home? j = some c := hc
    rw [Layout.home?_unplace] at hc
    rw [nodes_withNode] at hm
    obtain ⟨n, hn, rfl⟩ := Option.map_eq_some_iff.mp hm
    split at hc
    · cases hc
    case isFalse hj =>
      rw [if_neg hj]
      exact h.placed j n c hn hc
  recorded j m c hm hc := by
    show (g.layout.unplace i b).home? j = some c ∨ _
    rw [Layout.home?_unplace]
    rw [nodes_withNode] at hm
    obtain ⟨n, hn, rfl⟩ := Option.map_eq_some_iff.mp hm
    by_cases hj : j = i
    · rw [if_pos hj] at hc
      cases hc
    · rw [if_neg hj] at hc ⊢
      exact h.recorded j n c hn hc
  phis c j hj := by
    obtain ⟨hlt, hblock⟩ := h.phis c j hj
    refine ⟨by rwa [size_withNode], fun m hm => ?_⟩
    show _ ∨ _ ∨ ∃ d, (g.layout.unplace i b).home? j = some d
    rw [Layout.home?_unplace]
    rw [nodes_withNode] at hm
    obtain ⟨n, hn, rfl⟩ := Option.map_eq_some_iff.mp hm
    by_cases hji : j = i
    · rw [if_pos hji]
      exact .inr (.inl rfl)
    · rw [if_neg hji, if_neg hji]
      exact hblock n hn

theorem withNode_withNode (f h : Node → Node) : (g.withNode i f).withNode i h = g.withNode i fun n => h (f n) := by
  unfold FlowGraph.withNode
  rw [mapNodes_mapNodes]
  refine mapNodes_congr fun k n _ => ?_
  split <;> rfl

theorem move (h : g.Located) (hc : g.layout.home? i = some c) {l : Layout} (hl : l = g.layout.unplace i c)
    (hb : l.home? j = some b) (hfree : l.home? i = none) (hi : i.index < g.nodes.size) {o : Option BlockId}
    (ho : o = some b ∨ o = none) :
    ((g.withLayout (l.place i b (Layout.putBefore j i (l.insts b)))).withNode i
      fun n => { n with block := o }).Located := by
  have hout := h.unplace hc
  rw [← hl] at hout
  have hperm : (Layout.putBefore j i (l.insts b)).Perm (i :: l.insts b) :=
    Layout.putBefore_perm (hout.sound.mem_iff.mpr hb)
  generalize hg₁ : (g.withLayout l).withNode i (fun n => { n with block := none }) = g₁ at hout
  have hlayout : g₁.layout = l := by rw [← hg₁]; rfl
  have hsize : g₁.nodes.size = g.nodes.size := by rw [← hg₁, size_withNode]; rfl
  have hperm' : (Layout.putBefore j i (l.insts b)).Perm (i :: g₁.layout.insts b) := by rwa [hlayout]
  have hin := hout.place (hlayout ▸ hfree) (hsize ▸ hi) (b := b) hperm' ho
  rw [hlayout] at hin
  generalize l.place i b (Layout.putBefore j i (l.insts b)) = l' at hin ⊢
  have hsame : (g₁.withLayout l').withNode i (fun n => { n with block := o }) =
      (g.withLayout l').withNode i fun n => { n with block := o } := by
    rw [← hg₁, ← withNode_withLayout]
    exact withNode_withNode _ _
  rwa [hsame] at hin

theorem moveAll (h : g.Located) :
    ((g.withLayout (g.layout.moveAll b c)).mapNodes fun j n =>
      if j ∈ g.layout.insts b then { n with block := some c } else n).Located where
  sound := h.sound.moveAll
  bounded j d hd := by
    have hd : (g.layout.moveAll b c).home? j = some d := hd
    rw [h.sound.home?_moveAll] at hd
    rw [size_mapNodes]
    split at hd
    case isTrue hj => exact h.bounded j b (h.sound.mem_iff.mp hj)
    case isFalse => exact h.bounded j d hd
  placed j m d hm hd := by
    have hd : (g.layout.moveAll b c).home? j = some d := hd
    rw [h.sound.home?_moveAll] at hd
    rw [nodes_mapNodes] at hm
    obtain ⟨n, hn, rfl⟩ := Option.map_eq_some_iff.mp hm
    by_cases hj : j ∈ g.layout.insts b
    · rw [if_pos hj] at hd ⊢
      exact .inl hd
    · rw [if_neg hj] at hd ⊢
      exact h.placed j n d hn hd
  recorded j m d hm hd := by
    show (g.layout.moveAll b c).home? j = some d ∨ _
    rw [h.sound.home?_moveAll]
    rw [nodes_mapNodes] at hm
    obtain ⟨n, hn, rfl⟩ := Option.map_eq_some_iff.mp hm
    by_cases hj : j ∈ g.layout.insts b
    · rw [if_pos hj] at hd ⊢
      exact .inl hd
    · rw [if_neg hj] at hd ⊢
      exact h.recorded j n d hn hd
  phis d j hj := by
    obtain ⟨hlt, hblock⟩ := h.phis d j hj
    refine ⟨by rwa [size_mapNodes], fun m hm => ?_⟩
    show _ ∨ _ ∨ ∃ e, (g.layout.moveAll b c).home? j = some e
    rw [h.sound.home?_moveAll]
    rw [nodes_mapNodes] at hm
    obtain ⟨n, hn, rfl⟩ := Option.map_eq_some_iff.mp hm
    by_cases hji : j ∈ g.layout.insts b
    · exact .inr (.inr ⟨c, if_pos hji⟩)
    · rw [if_neg hji, if_neg hji]
      exact hblock n hn

theorem withInitial (h : g.Located) {n : Node} :
    { g.withInst { n with block := some graphEntry } with
      initialDefinitions := g.initialDefinitions ++ [g.nextId] }.Located where
  sound := h.sound
  bounded i b hb := by
    have := h.bounded i b hb
    show i.index < (g.withInst _).nodes.size
    rw [size_withInst]
    omega
  placed i m b hm hb := by
    have hlt := h.bounded i b hb
    have hm : (g.withInst _).nodes[i.index]? = some m := hm
    rw [nodes_withInst, if_neg (by rintro rfl; exact Nat.lt_irrefl _ hlt)] at hm
    exact h.placed i m b hm hb
  recorded i m b hm hb := by
    have hm : (g.withInst _).nodes[i.index]? = some m := hm
    rw [nodes_withInst] at hm
    split at hm
    case isTrue hi => exact .inr (.inl (by simp [hi]))
    case isFalse =>
      refine (h.recorded i m b hm hb).imp_right (Or.imp_left fun hi => ?_)
      exact List.mem_append_left _ hi
  phis b i hi := by
    obtain ⟨hlt, hblock⟩ := h.phis b i hi
    refine ⟨by show i.index < (g.withInst _).nodes.size; rw [size_withInst]; omega, fun m hm => ?_⟩
    have hm : (g.withInst _).nodes[i.index]? = some m := hm
    rw [nodes_withInst, if_neg (by rintro rfl; exact Nat.lt_irrefl _ hlt)] at hm
    exact hblock m hm

theorem hasPhi_append : (g.withBlock b fun k => { k with phis := k.phis ++ [i] }).HasPhi c j ↔
    g.HasPhi c j ∨ c = b ∧ j = i ∧ b.index < g.blocks.size := by
  unfold HasPhi
  rw [blocks_withBlock]
  cases hk : g.blocks[c.index]? with
  | none =>
    simp only [Option.map_none, reduceCtorEq, false_and, exists_false, false_or, false_iff]
    rintro ⟨rfl, -, hlt⟩
    simp [hlt] at hk
  | some k =>
    have hlt := (Array.getElem?_eq_some_iff.mp hk).1
    by_cases hc : c = b
    · subst hc
      simp [hlt]
    · simp [hc]

theorem withPhi (h : g.Located) {n : Node} (hb : b.index < g.blocks.size) :
    ((g.withInst { n with block := some b }).withBlock b fun k => { k with phis := k.phis ++ [g.nextId] }).Located where
  sound := h.sound
  bounded i c hc := by
    have := h.bounded i c hc
    show i.index < (g.withInst _).nodes.size
    rw [size_withInst]
    omega
  placed i m c hm hc := by
    have hlt := h.bounded i c hc
    rw [nodes_withBlock, nodes_withInst, if_neg (by rintro rfl; exact Nat.lt_irrefl _ hlt)] at hm
    exact h.placed i m c hm hc
  recorded i m c hm hc := by
    rw [hasPhi_append]
    rw [nodes_withBlock, nodes_withInst] at hm
    split at hm
    case isTrue hi =>
      rw [← Option.some_inj.mp hm] at hc
      exact .inr (.inr (.inr ⟨(Option.some_inj.mp hc).symm, hi, hb⟩))
    case isFalse => exact (h.recorded i m c hm hc).imp_right (Or.imp_right Or.inl)
  phis c i hi := by
    rw [nodes_withBlock, size_withInst]
    rw [hasPhi_append] at hi
    obtain hi | ⟨rfl, rfl, -⟩ := hi
    · obtain ⟨hlt, hblock⟩ := h.phis c i hi
      refine ⟨by omega, fun m hm => ?_⟩
      rw [nodes_withInst, if_neg (by rintro rfl; exact Nat.lt_irrefl _ hlt)] at hm
      exact hblock m hm
    · refine ⟨Nat.lt_succ_self _, fun m hm => ?_⟩
      rw [nodes_withInst, if_pos rfl] at hm
      rw [← Option.some_inj.mp hm]
      exact .inl rfl

theorem forget (h : g.Located) {f : Block → Block} (hphis : ∀ k, ∀ j ∈ (f k).phis, j ∈ k.phis)
    (hkept : ∀ k, ∀ j ∈ k.phis, j ≠ i → j ∈ (f k).phis) :
    ((g.withBlock b f).withNode i fun n => { n with block := none }).Located where
  sound := h.sound
  bounded j c hc := by
    rw [size_withNode]
    exact h.bounded j c hc
  placed j m c hm hc := by
    rw [nodes_withNode] at hm
    obtain ⟨n, hn, rfl⟩ := Option.map_eq_some_iff.mp hm
    by_cases hj : j = i
    · rw [if_pos hj]
      exact .inr rfl
    · rw [if_neg hj]
      exact h.placed j n c hn hc
  recorded j m c hm hc := by
    rw [nodes_withNode] at hm
    obtain ⟨n, hn, rfl⟩ := Option.map_eq_some_iff.mp hm
    by_cases hj : j = i
    · rw [if_pos hj] at hc
      cases hc
    · rw [if_neg hj] at hc
      refine (h.recorded j n c hn hc).imp_right (Or.imp_right fun ⟨k, hk, hmem⟩ => ?_)
      refine ⟨if c = b then f k else k, by rw [blocks_withNode, blocks_withBlock, hk]; rfl, ?_⟩
      split
      · exact hkept k j hmem hj
      · exact hmem
  phis c j hj := by
    obtain ⟨k', hk', hmem⟩ := hj
    rw [blocks_withNode, blocks_withBlock] at hk'
    obtain ⟨k, hk, rfl⟩ := Option.map_eq_some_iff.mp hk'
    have hold : g.HasPhi c j := by
      refine ⟨k, hk, ?_⟩
      split at hmem
      · exact hphis k j hmem
      · exact hmem
    obtain ⟨hlt, hblock⟩ := h.phis c j hold
    refine ⟨by rw [size_withNode]; exact hlt, fun m hm => ?_⟩
    rw [nodes_withNode] at hm
    obtain ⟨n, hn, rfl⟩ := Option.map_eq_some_iff.mp hm
    by_cases hji : j = i
    · rw [if_pos hji]
      exact .inr (.inl rfl)
    · rw [if_neg hji]
      exact hblock n hn

end Located

end FlowGraph

/-! ## Edits -/

open FlowGraph

namespace Keeps

variable {g : FlowGraph} {i j anchor : InstId} {b c : BlockId}

theorem located_modifyNode {f : Node → Node} (hf : ∀ n, (f n).block = n.block) :
    Keeps Located (Edit.modifyNode i f) := by
  intro g hg
  rw [Leads.modifyNode_iff]
  exact ⟨fun _ => hg.withNode hf, fun _ => trivial⟩

theorem located_modifyNode? {f : Node → Node} (hf : ∀ n, (f n).block = n.block) :
    Keeps Located (Edit.modifyNode? i f) := by
  intro g hg
  rw [Leads.modifyNode?_iff]
  exact hg.withNode hf

theorem located_modifyBlock {f : Block → Block} (hf : ∀ k, (f k).phis = k.phis) :
    Keeps Located (Edit.modifyBlock b f) := by
  intro g hg
  rw [Leads.modifyBlock_iff]
  exact ⟨fun _ => hg.withBlock hf, fun _ => trivial⟩

theorem located_modify {f : FlowGraph → FlowGraph} (hlayout : ∀ g, (f g).layout = g.layout)
    (hnodes : ∀ g, (f g).nodes = g.nodes) (hblocks : ∀ g, (f g).blocks = g.blocks)
    (hinitial : ∀ g, (f g).initialDefinitions = g.initialDefinitions) : Keeps Located (modify f : Edit PUnit) := by
  intro g hg
  refine hg.congr (hlayout g) (by rw [hnodes]) (hinitial g) (fun i n hn => ⟨n, hnodes g ▸ hn, rfl⟩) fun c i => ?_
  unfold HasPhi
  rw [hblocks]

theorem located_uses {us : List (InstId × Use)} {f : InstId × Use → Node → Node} (hf : ∀ u n, (f u n).block = n.block) :
    Keeps Located (us.forM fun u => Edit.modifyNode? u.1 (f u)) :=
  each fun u _ => located_modifyNode? (hf u)

theorem located_addInputUses : Keeps Located (Edit.addInputUses i) :=
  reading fun _ => andThen lifted fun _ =>
    located_uses (f := fun u m => { m with inputUses := m.inputUses ++ [u.2] }) fun _ _ => rfl

theorem located_dropInputUses : Keeps Located (Edit.dropInputUses i) :=
  reading fun _ => andThen lifted fun _ =>
    located_uses (f := fun u m => { m with inputUses := m.inputUses.filter (· != u.2) }) fun _ _ => rfl

theorem located_envValues : Keeps Located (Edit.envValues i) :=
  reading fun _ => andThen lifted fun e => by
    cases e with
    | none => exact value _
    | some e => exact value _

theorem located_addEnvUses : Keeps Located (Edit.addEnvUses i) :=
  andThen located_envValues fun _ =>
    located_uses (f := fun u m => { m with envUses := m.envUses ++ [u.2] }) fun _ _ => rfl

theorem located_dropEnvUses : Keeps Located (Edit.dropEnvUses i) :=
  andThen located_envValues fun _ =>
    located_uses (f := fun u m => { m with envUses := m.envUses.filter (· != u.2) }) fun _ _ => rfl

theorem located_addUses : Keeps Located (Edit.addUses i) := andThen located_addInputUses fun _ => located_addEnvUses

theorem located_allocDeoptId : Keeps Located Edit.allocDeoptId :=
  reading fun _ => andThen (located_modify (fun _ => rfl) (fun _ => rfl) (fun _ => rfl) fun _ => rfl) fun _ => value _

theorem located_allocSsaIndex : Keeps Located (Edit.allocSsaIndex i) :=
  reading fun _ => andThen (located_modify (fun _ => rfl) (fun _ => rfl) (fun _ => rfl) fun _ => rfl) fun _ =>
    andThen (located_modifyNode fun _ => rfl) fun _ => value _

theorem located_ensureSsaIndex : Keeps Located (Edit.ensureSsaIndex i j) :=
  reading fun _ => andThen lifted fun _ => either
    (andThen lifted fun _ => either (ignoring located_allocSsaIndex) (value _)) (value _)

theorem located_addInst {d : Inst} : Keeps Located (Edit.addInst d) := by
  intro g hg
  rw [Leads.addInst_iff]
  exact hg.withInst rfl

theorem located_addBlock {kind : BlockKind} : Keeps Located (Edit.addBlock kind) := by
  intro g hg
  refine hg.congr rfl rfl rfl (fun _ n hn => ⟨n, hn, rfl⟩) fun c i => ?_
  unfold HasPhi
  rw [Array.getElem?_push]
  by_cases hc : c.index = g.blocks.size
  · simp [hc]
  · rw [if_neg hc]

theorem located_addCatchEntry : Keeps Located Edit.addCatchEntry :=
  andThen located_addBlock fun _ =>
    andThen (located_modify (fun _ => rfl) (fun _ => rfl) (fun _ => rfl) fun _ => rfl) fun _ => value _

theorem located_addInitialDefinition {d : Inst} : Keeps Located (Edit.addInitialDefinition d) := by
  intro g hg
  rw [Leads.addInitialDefinition_iff]
  exact hg.withInitial (n := { inst := d })

theorem located_getConstant {k : Constant} : Keeps Located (Edit.getConstant k) := by
  intro g hg
  refine (Leads.getConstant_cases fun h => absurd trivial h).mono ?_
  rintro i g' (⟨rfl, -⟩ | ⟨-, -, rfl⟩)
  · exact hg
  · exact (hg.withInitial (n := { inst := .constant k, ssaIndex := some g.nextSsaIndex })).congr rfl rfl rfl
      (fun _ n hn => ⟨n, hn, rfl⟩) fun _ _ => .rfl

/-! ### Placing and removing -/

theorem located_settle (hg : g.Located) (hfree : g.layout.home? i = none) {is : List InstId}
    (his : is.Perm (i :: g.layout.insts b)) {o : Option BlockId} (ho : o = some b ∨ o = none) :
    Leads True (g.withLayout (g.layout.place i b is)) (Edit.setBlock i o) fun _ g' => g'.Located := by
  unfold Edit.setBlock
  rw [Leads.modifyNode_iff]
  exact ⟨fun hi => hg.place hfree hi his ho, fun _ => trivial⟩

theorem located_link : Keeps Located (Edit.link b i) := by
  intro g hg
  unfold Edit.link
  rw [Leads.bind_iff, Leads.onLayout_iff]
  refine Yields.of_ok fun l hl => ?_
  obtain ⟨hfree, rfl⟩ := Layout.append_eq_ok.mp hl
  exact located_settle hg hfree (List.perm_append_singleton i _) (.inl rfl)

theorem located_prepend : Keeps Located (Edit.prepend b i) := by
  intro g hg
  unfold Edit.prepend
  rw [Leads.bind_iff, Leads.onLayout_iff]
  refine Yields.of_ok fun l hl => ?_
  obtain ⟨hfree, rfl⟩ := Layout.prepend_eq_ok.mp hl
  rw [Leads.bind_iff]
  exact (located_settle hg hfree (.refl _) (.inl rfl)).mono fun _ g' hg' => located_addUses g' hg'

theorem located_anchored (hg : g.Located) (hb : g.layout.home? anchor = some b) (hfree : g.layout.home? i = none)
    {is : List InstId} (his : is.Perm (i :: g.layout.insts b)) :
    Leads True (g.withLayout (g.layout.place i b is)) (do Edit.setBlock i (← (← get).node anchor).block)
      fun _ g' => g'.Located := by
  rw [Leads.bind_iff, Leads.get_iff, Leads.bind_iff, Leads.lift_iff]
  refine Yields.of_ok fun n hn => ?_
  exact located_settle hg hfree his (hg.placed anchor n b (FlowGraph.node_eq_ok.mp hn) hb)

theorem located_linkAfter : Keeps Located (Edit.linkAfter anchor i) := by
  intro g hg
  unfold Edit.linkAfter
  rw [Leads.bind_iff, Leads.onLayout_iff]
  refine Yields.of_ok fun l hl => ?_
  obtain ⟨b, hb, hfree, rfl⟩ := Layout.insertAfter_eq_ok.mp hl
  exact located_anchored hg hb hfree (Layout.putAfter_perm (hg.sound.mem_iff.mpr hb))

theorem located_insertAfter : Keeps Located (Edit.insertAfter anchor i) :=
  andThen located_linkAfter fun _ => located_addUses

theorem located_insertBefore : Keeps Located (Edit.insertBefore anchor i) := by
  intro g hg
  unfold Edit.insertBefore
  rw [Leads.bind_iff, Leads.onLayout_iff]
  refine Yields.of_ok fun l hl => ?_
  obtain ⟨b, hb, hfree, rfl⟩ := Layout.insertBefore_eq_ok.mp hl
  have h := located_anchored hg hb hfree (Layout.putBefore_perm (hg.sound.mem_iff.mpr hb))
  rw [Leads.bind_iff, Leads.get_iff, Leads.bind_iff, Leads.lift_iff] at h ⊢
  refine h.mono fun _ _ h => ?_
  rw [Leads.bind_iff]
  exact h.mono fun _ g' hg' => located_addUses g' hg'

theorem located_append : Keeps Located (Edit.append b i) := andThen located_link fun _ => located_addUses

theorem located_unlink : Keeps Located (do Edit.onLayout (·.remove i); Edit.setBlock i none) := by
  intro g hg
  unfold Edit.setBlock
  rw [Leads.bind_iff, Leads.onLayout_iff]
  refine Yields.of_ok fun l hl => ?_
  obtain ⟨b, hb, rfl⟩ := Layout.remove_eq_ok.mp hl
  rw [Leads.modifyNode_iff]
  exact ⟨fun _ => hg.unplace hb, fun _ => trivial⟩

theorem located_remove : Keeps Located (Edit.remove i) := by
  refine reading fun g => andThen lifted fun used => ?_
  have hrest : Keeps Located (do
      Edit.dropInputUses i
      Edit.dropEnvUses i
      Edit.onLayout (·.remove i)
      Edit.setBlock i none) :=
    andThen located_dropInputUses fun _ => andThen located_dropEnvUses fun _ => located_unlink
  exact either (andThen lifted fun _ => andThen (fault _) fun _ => hrest) hrest

theorem located_moveBefore : Keeps Located (Edit.moveBefore i anchor) := by
  intro g hg
  unfold Edit.moveBefore
  rw [Leads.bind_iff, Leads.onLayout_iff]
  refine Yields.of_ok fun l hremove => ?_
  obtain ⟨c, hc, hl⟩ := Layout.remove_eq_ok.mp hremove
  rw [Leads.bind_iff, Leads.onLayout_iff, layout_withLayout]
  refine Yields.of_ok fun l' hinsert => ?_
  obtain ⟨b, hb, hfree, rfl⟩ := Layout.insertBefore_eq_ok.mp hinsert
  rw [Leads.bind_iff, Leads.get_iff, Leads.bind_iff, Leads.lift_iff]
  refine Yields.of_ok fun n hn => ?_
  -- The anchor is not `i`, which has no place in between.
  have hne : anchor ≠ i := by
    intro heq
    rw [heq, hfree] at hb
    cases hb
  have hblock : n.block = some b ∨ n.block = none := by
    have hhome := hb
    rw [hl, Layout.home?_unplace, if_neg hne] at hhome
    exact hg.placed anchor n b (FlowGraph.node_eq_ok.mp hn) hhome
  unfold Edit.setBlock
  rw [Leads.modifyNode_iff]
  exact ⟨fun hi => hg.move hc hl hb hfree hi hblock, fun _ => trivial⟩

theorem located_moveAll : Keeps Located (Edit.moveAll b c) := by
  intro g hg
  unfold Edit.moveAll Edit.setBlock
  rw [Leads.bind_iff, Leads.get_iff, Leads.bind_iff, Leads.onLayout_iff, Yields.ok_iff]
  refine (Leads.forM (fun done g' => g' = (g.withLayout (g.layout.moveAll b c)).mapNodes fun j n =>
    if j ∈ done then { n with block := some c } else n) (by simp) ?_).mono ?_
  · rintro done i rest _ - rfl
    rw [Leads.modifyNode_iff]
    refine ⟨fun _ => ?_, fun _ => trivial⟩
    unfold withNode
    rw [mapNodes_mapNodes]
    refine mapNodes_congr fun k n _ => ?_
    by_cases hk : k = i
    · by_cases hd : i ∈ done <;> simp [hk, hd]
    · simp [hk]
  · rintro _ _ rfl
    exact hg.moveAll

/-! ### Inputs and environments -/

theorem located_forgetReaching {u : Use} : Keeps Located (Edit.forgetReaching u) :=
  located_modify (fun _ => rfl) (fun _ => rfl) (fun _ => rfl) fun _ => rfl

theorem located_setReaching {u : Use} {k : ClassId} : Keeps Located (Edit.setReaching u k) :=
  located_modify (fun _ => rfl) (fun _ => rfl) (fun _ => rfl) fun _ => rfl

theorem located_setArgQuietly {k : Nat} : Keeps Located (Edit.setArgQuietly i k j) :=
  reading fun _ => andThen lifted fun _ => either (located_modifyNode fun _ => rfl) (fault _)

theorem located_setArg {k : Nat} : Keeps Located (Edit.setArg i k j) :=
  reading fun _ => andThen lifted fun _ => andThen (located_modifyNode? fun _ => rfl) fun _ =>
    andThen located_setArgQuietly fun _ => andThen located_forgetReaching fun _ => located_modifyNode? fun _ => rfl

theorem located_setEnvValue {k : Nat} : Keeps Located (Edit.setEnvValue i k j) :=
  reading fun _ => andThen lifted fun e => by
    cases e with
    | none => exact value _
    | some e => exact andThen lifted fun _ => located_modifyNode fun _ => rfl

theorem located_replaceUses : Keeps Located (Edit.replaceUses i j) := by
  unfold Edit.replaceUses
  refine either (value _) ?_
  refine reading fun _ => ?_
  refine andThen lifted fun _ => ?_
  refine andThen (located_modifyNode fun _ => rfl) fun _ => ?_
  refine andThen (each fun _ _ => andThen located_setArgQuietly fun _ => located_forgetReaching) fun _ => ?_
  refine andThen (located_modifyNode fun _ => rfl) fun _ => ?_
  refine reading fun _ => ?_
  refine andThen lifted fun _ => ?_
  refine andThen (located_modifyNode fun _ => rfl) fun _ => ?_
  exact andThen (each fun _ _ => located_setEnvValue) fun _ => located_modifyNode fun _ => rfl

theorem located_replaceByExisting : Keeps Located (Edit.replaceByExisting i j) :=
  andThen located_replaceUses fun _ => located_remove

theorem located_setEnv {e : Option Environment} : Keeps Located (Edit.setEnv i e) :=
  andThen located_dropEnvUses fun _ => andThen (located_modifyNode fun _ => rfl) fun _ =>
    reading fun _ => andThen lifted fun _ => either located_addEnvUses (value _)

theorem located_copyDeoptTarget : Keeps Located (Edit.copyDeoptTarget i j) :=
  reading fun _ => andThen lifted fun _ => andThen (located_modifyNode fun _ => rfl) fun _ => located_setEnv

theorem located_replaceInst : Keeps Located (Edit.replaceInst i j) :=
  andThen located_copyDeoptTarget fun _ => andThen located_insertBefore fun _ =>
    andThen located_ensureSsaIndex fun _ => andThen located_replaceUses fun _ => located_remove

theorem located_setClass {k : ClassId} : Keeps Located (Edit.setClass i k) :=
  reading fun _ => andThen lifted fun _ => andThen (located_modifyNode fun _ => rfl) fun _ => value _

theorem located_computeUseLists : Keeps Located Edit.computeUseLists := by
  refine andThen ?_ fun _ => reading fun _ => each fun b _ => ?_
  · intro g hg
    refine hg.congr rfl (by simp) rfl (fun i n' hn' => ?_) fun _ _ => .rfl
    simp only [Array.getElem?_map] at hn'
    obtain ⟨n, hn, rfl⟩ := Option.map_eq_some_iff.mp hn'
    exact ⟨n, hn, rfl⟩
  · refine reading fun _ => ?_
    refine andThen lifted fun _ => ?_
    refine andThen (each fun _ _ => located_addInputUses) fun _ => ?_
    refine reading fun _ => ?_
    refine each fun _ _ => ?_
    exact andThen located_addInputUses fun _ => located_addEnvUses

/-! ### Phis -/

theorem located_addPhi {slot : Option Nat} {k : Nat} : Keeps Located (Edit.addPhi b slot k) := by
  intro g hg
  unfold Edit.addPhi Edit.setBlock
  split
  · exact trivial
  rw [Leads.bind_iff, Leads.addInst_iff, Leads.bind_iff, Leads.modifyNode_iff]
  refine ⟨fun _ => ?_, fun _ => trivial⟩
  rw [withNode_withInst, Leads.bind_iff, Leads.modifyBlock_iff]
  exact ⟨fun hb => hg.withPhi hb, fun _ => trivial⟩

/-- While `i` is taken off the phis of its block, the graph is the way it should be as soon as `i` knows no block. -/
theorem forgetting_uses {us : List (InstId × Use)} {f : InstId × Use → Node → Node}
    (hf : ∀ u n, (f u n).block = n.block) :
    Keeps (fun g => (g.withNode i fun n => { n with block := none }).Located)
      (us.forM fun u => Edit.modifyNode? u.1 (f u)) := by
  refine each fun u _ g hg => ?_
  rw [Leads.modifyNode?_iff]
  refine hg.congr rfl (by simp) rfl (fun j m hm => ?_) fun _ _ => .rfl
  rw [nodes_withNode, nodes_withNode, Option.map_map] at hm
  rw [nodes_withNode]
  obtain ⟨n, hn, rfl⟩ := Option.map_eq_some_iff.mp hm
  refine ⟨_, by rw [hn]; rfl, ?_⟩
  simp only [Function.comp_apply]
  by_cases hji : j = i
  · simp [hji]
  · by_cases hju : j = u.1
    · simp [← hju, hji, hf]
    · simp [hji, hju]

theorem located_removePhi : Keeps Located (Edit.removePhi i) := by
  intro g hg
  have hrest : Keeps (fun g => (g.withNode i fun n => { n with block := none }).Located) (do
      Edit.dropInputUses i
      Edit.dropEnvUses i) := by
    refine andThen (reading fun _ => andThen lifted fun _ => ?_) fun _ =>
      andThen (reading fun _ => andThen lifted fun e => ?_) fun _ => ?_
    · exact forgetting_uses (f := fun u m => { m with inputUses := m.inputUses.filter (· != u.2) }) fun _ _ => rfl
    · cases e with
      | none => exact value _
      | some e => exact value _
    · exact forgetting_uses (f := fun u m => { m with envUses := m.envUses.filter (· != u.2) }) fun _ _ => rfl
  have hdone (g₁ : FlowGraph) (hg₁ : (g₁.withNode i fun n => { n with block := none }).Located) : Leads True g₁ (do
      Edit.dropInputUses i
      Edit.dropEnvUses i
      Edit.setBlock i none) fun _ g' => g'.Located := by
    have h := hrest g₁ hg₁
    rw [Leads.bind_iff] at h ⊢
    refine h.mono fun _ g₂ h₂ => ?_
    rw [Leads.bind_iff]
    refine h₂.mono fun _ g₃ h₃ => ?_
    unfold Edit.setBlock
    rw [Leads.modifyNode_iff]
    exact ⟨fun _ => h₃, fun _ => trivial⟩
  unfold Edit.removePhi
  rw [Leads.bind_iff, Leads.get_iff, Leads.bind_iff, Leads.lift_iff]
  refine Yields.of_ok fun n _ => ?_
  cases n.block with
  | none =>
    refine hdone g ?_
    have h := hg.forget (i := i) (b := graphEntry) (f := fun k => k) (fun _ _ h => h) fun _ _ h _ => h
    rwa [withBlock_eq_mapBlocks,
      show (fun (c : BlockId) (k : Block) => if c = graphEntry then k else k) = fun _ k => k from
      funext fun c => funext fun k => ite_self k, mapBlocks_id] at h
  | some b =>
    rw [Leads.bind_iff, Leads.modifyBlock_iff]
    refine ⟨fun _ => hdone _ (hg.forget (fun k j hj => (List.mem_filter.mp hj).1) fun k j hj hne => ?_),
      fun _ => trivial⟩
    exact List.mem_filter.mpr ⟨hj, bne_iff_ne.mpr hne⟩

/-! ### Orders of blocks -/

theorem located_visitBlock {pred : Option BlockId} : Keeps Located (Flow.visitBlock b pred) := by
  have hrest (parent : Option Nat) (g : FlowGraph) : Keeps Located (do
      let slots ← Flow.assignedSlots g (g.insts b)
      Edit.modifyBlock b fun k => { k with preorderNumber := some g.preorder.length }
      modify fun g => { g with
        preorder := g.preorder ++ [b]
        parents := g.parents.push parent
        assigned := g.assigned.push slots }) :=
    andThen lifted fun _ => andThen (located_modifyBlock fun _ => rfl) fun _ =>
      located_modify (fun _ => rfl) (fun _ => rfl) (fun _ => rfl) fun _ => rfl
  unfold Flow.visitBlock
  refine andThen (located_modifyBlock fun _ => rfl) fun _ => ?_
  cases pred with
  | none => exact reading fun g => hrest none g
  | some p =>
    refine andThen (located_modifyBlock fun _ => rfl) fun _ => reading fun g => ?_
    exact andThen lifted fun k => hrest k.preorderNumber g

theorem located_walk {steps : Nat} {stack : List (BlockId × List BlockId)} : Keeps Located (Flow.walk steps stack) := by
  induction steps generalizing stack with
  | zero =>
    cases stack with
    | nil => exact value _
    | cons e stack => exact fault _
  | succ steps ih =>
    match stack with
    | [] => exact value _
    | (b, []) :: stack =>
      refine andThen ?_ fun _ => ih
      refine reading fun _ => ?_
      refine andThen (located_modifyBlock fun _ => rfl) fun _ => ?_
      exact located_modify (fun _ => rfl) (fun _ => rfl) (fun _ => rfl) fun _ => rfl
    | (b, s :: rest) :: stack =>
      refine reading fun _ => andThen lifted fun _ => either ?_ ?_
      · exact andThen (located_modifyBlock fun _ => rfl) fun _ => ih
      · refine andThen located_visitBlock fun _ => ?_
        refine reading fun _ => ?_
        exact andThen lifted fun _ => ih

theorem located_discover : Keeps Located Flow.discover := by
  refine andThen (fun g hg => ?_) fun _ => andThen located_visitBlock fun _ => reading fun _ => andThen lifted fun _ =>
    located_walk
  refine hg.congr rfl rfl rfl (fun _ n hn => ⟨n, hn, rfl⟩) fun b i => ?_
  simp only [HasPhi, Array.getElem?_map]
  cases g.blocks[b.index]? <;> simp

theorem located_computeDominators : Keeps Located Flow.computeDominators := by
  refine reading fun g => ?_
  refine andThen lifted fun preds => ?_
  refine andThen (each fun _ _ => located_modifyBlock fun _ => rfl) fun _ => ?_
  refine andThen (each fun bn _ => ?_) fun _ => value _
  dsimp only
  split
  · refine reading fun _ => ?_
    refine andThen lifted fun _ => ?_
    refine andThen (located_modifyBlock fun _ => rfl) fun _ => ?_
    exact located_modifyBlock fun _ => rfl
  · exact value _

theorem located_computeLoops : Keeps Located Flow.computeLoops := by
  refine reading fun g => ?_
  refine andThen lifted fun preds g₁ hg₁ => ?_
  refine Leads.filterM_of_forall Located hg₁ fun b _ => ?_
  exact andThen lifted fun _ => andThen (located_modifyBlock fun _ => rfl) fun _ => value _

/-! ### The builder -/

theorem located_buildAt {d : Inst} : Keeps Located (Build.buildAt b d) := by
  refine andThen (each fun _ _ => located_modifyNode fun _ => rfl) fun _ => andThen located_addInst fun i => ?_
  have hrest : Keeps Located (do Edit.link b i; return i) := andThen located_link fun _ => value _
  exact either (andThen located_allocDeoptId fun _ => andThen (located_modifyNode fun _ => rfl) fun _ => hrest) hrest

end Keeps

/-! ## Edited graphs -/

/-- What may be done to a graph from outside: its own edits, the analyses of its blocks, and the steps of a builder. The
fields that anyone may write are written together. -/
inductive Operation where
  | addBlock (kind : BlockKind)
  | addCatchEntry
  | addInst (d : Inst)
  | addInitialDefinition (d : Inst)
  | getConstant (c : Constant)
  | buildAt (b : BlockId) (d : Inst)
  | pushBehind (value : InstId)
  | writeInst (i : InstId) (d : Inst) (deoptId : Option Nat) (range : Option Range) (replacement : Option InstId)
      (isUsed : Bool)
  | writeBlock (b : BlockId) (kind : BlockKind) (preorderNumber postorderNumber : Option Nat)
      (dominator : Option BlockId) (dominated : List BlockId) (loop : Option (List Nat))
  | append (b : BlockId) (i : InstId)
  | prepend (b : BlockId) (i : InstId)
  | insertBefore (anchor i : InstId)
  | insertAfter (anchor i : InstId)
  | remove (i : InstId)
  | moveBefore (i anchor : InstId)
  | moveAll (source target : BlockId)
  | setArg (user : InstId) (k : Nat) (d : InstId)
  | retarget (i : InstId) (k : Nat) (b : BlockId)
  | replaceUses (old new : InstId)
  | replaceByExisting (old existing : InstId)
  | replaceInst (old new : InstId)
  | setEnv (i : InstId) (e : Option Environment)
  | copyDeoptTarget (target source : InstId)
  | addPhi (b : BlockId) (slot : Option Nat) (inputs : Nat)
  | revivePhi (i : InstId)
  | insertPhi (i : InstId)
  | removePhi (i : InstId)
  | setClass (d : InstId) (c : ClassId)
  | setReaching (u : Use) (c : ClassId)
  | allocSsaIndex (d : InstId)
  | ensureSsaIndex (new old : InstId)
  | allocDeoptId
  | computeUseLists
  | discover
  | computeDominators
  | computeLoops

def Operation.run : Operation → Edit Unit
  | addBlock kind => discard (Edit.addBlock kind)
  | addCatchEntry => discard Edit.addCatchEntry
  | addInst d => discard (Edit.addInst d)
  | addInitialDefinition d => discard (Edit.addInitialDefinition d)
  | getConstant c => discard (Edit.getConstant c)
  | buildAt b d => discard (Build.buildAt b d)
  | pushBehind value => do
    Build.markUsed value
    let push ← Edit.addInst (.pushArgument value)
    Edit.linkAfter value push
  | writeInst i d deoptId range replacement isUsed =>
    Edit.modifyNode i fun n => { n with inst := d, deoptId, range, replacement, isUsed }
  | writeBlock b kind preorderNumber postorderNumber dominator dominated loop =>
    Edit.modifyBlock b fun k => { k with kind, preorderNumber, postorderNumber, dominator, dominated, loop }
  | append b i => Edit.append b i
  | prepend b i => Edit.prepend b i
  | insertBefore anchor i => Edit.insertBefore anchor i
  | insertAfter anchor i => Edit.insertAfter anchor i
  | remove i => Edit.remove i
  | moveBefore i anchor => Edit.moveBefore i anchor
  | moveAll source target => Edit.moveAll source target
  | setArg user k d => Edit.setArg user k d
  | retarget i k b => Edit.retarget i k b
  | replaceUses old new => Edit.replaceUses old new
  | replaceByExisting old existing => Edit.replaceByExisting old existing
  | replaceInst old new => Edit.replaceInst old new
  | setEnv i e => Edit.setEnv i e
  | copyDeoptTarget target source => Edit.copyDeoptTarget target source
  | addPhi b slot inputs => discard (Edit.addPhi b slot inputs)
  | revivePhi i => Edit.revivePhi i
  | insertPhi i => Edit.insertPhi i
  | removePhi i => Edit.removePhi i
  | setClass d c => discard (Edit.setClass d c)
  | setReaching u c => Edit.setReaching u c
  | allocSsaIndex d => discard (Edit.allocSsaIndex d)
  | ensureSsaIndex new old => Edit.ensureSsaIndex new old
  | allocDeoptId => discard Edit.allocDeoptId
  | computeUseLists => Edit.computeUseLists
  | discover => Flow.discover
  | computeDominators => discard Flow.computeDominators
  | computeLoops => discard Flow.computeLoops

inductive Edited : FlowGraph → Prop
  | start {name : String} {parameters locals : Nat} {owner : Option ClassId} :
      Edited { FlowGraph.new name parameters locals with owner }
  | step {op : Operation} {g g' : FlowGraph} (h : Edited g) (hrun : op.run g = .ok ((), g')) : Edited g'

open Keeps in
theorem Operation.located (op : Operation) : Keeps Located op.run := by
  cases op with
  | addBlock => exact ignoring located_addBlock
  | addCatchEntry => exact ignoring located_addCatchEntry
  | addInst => exact ignoring located_addInst
  | addInitialDefinition => exact ignoring located_addInitialDefinition
  | getConstant => exact ignoring located_getConstant
  | buildAt => exact ignoring located_buildAt
  | pushBehind =>
    exact andThen (located_modifyNode fun _ => rfl) fun _ => andThen located_addInst fun _ => located_linkAfter
  | writeInst => exact located_modifyNode fun _ => rfl
  | writeBlock => exact located_modifyBlock fun _ => rfl
  | append => exact located_append
  | prepend => exact located_prepend
  | insertBefore => exact located_insertBefore
  | insertAfter => exact located_insertAfter
  | remove => exact located_remove
  | moveBefore => exact located_moveBefore
  | moveAll => exact located_moveAll
  | setArg => exact located_setArg
  | retarget =>
    refine reading fun _ => ?_
    refine andThen lifted fun _ => ?_
    refine andThen lifted fun _ => ?_
    exact located_modifyNode fun _ => rfl
  | replaceUses => exact located_replaceUses
  | replaceByExisting => exact located_replaceByExisting
  | replaceInst => exact located_replaceInst
  | setEnv => exact located_setEnv
  | copyDeoptTarget => exact located_copyDeoptTarget
  | addPhi => exact ignoring located_addPhi
  | revivePhi => exact located_modifyNode fun _ => rfl
  | insertPhi => exact andThen (located_modifyNode fun _ => rfl) fun _ => located_addInputUses
  | removePhi => exact located_removePhi
  | setClass => exact ignoring located_setClass
  | setReaching => exact located_setReaching
  | allocSsaIndex => exact ignoring located_allocSsaIndex
  | ensureSsaIndex => exact located_ensureSsaIndex
  | allocDeoptId => exact ignoring located_allocDeoptId
  | computeUseLists => exact located_computeUseLists
  | discover => exact located_discover
  | computeDominators => exact ignoring located_computeDominators
  | computeLoops => exact ignoring located_computeLoops

theorem Edited.located {g : FlowGraph} (h : Edited g) : g.Located := by
  induction h with
  | start =>
    refine ⟨Layout.Sound.empty, ?_, ?_, ?_, ?_⟩
    · simp [FlowGraph.new, Layout.home?, SideTable.get?]
    · simp [FlowGraph.new]
    · simp [FlowGraph.new]
    · rintro b i ⟨k, hk, hi⟩
      obtain ⟨_ | _ | n⟩ := b
      · obtain rfl : _ = k := Option.some_inj.mp hk
        cases hi
      · obtain rfl : _ = k := Option.some_inj.mp hk
        cases hi
      · simp [FlowGraph.new] at hk
  | step _ hrun ih => exact (Operation.located _ _ ih).post_of_ok hrun

/-- The graph after a list of operations, if none of them fails. -/
def Operation.script : List Operation → FlowGraph → Option FlowGraph
  | [], g => some g
  | op :: ops, g =>
    match op.run g with
    | .ok (_, g') => script ops g'
    | .error _ => none

theorem Edited.script {ops : List Operation} {g g' : FlowGraph} (h : Edited g)
    (hrun : Operation.script ops g = some g') : Edited g' := by
  induction ops generalizing g with
  | nil => exact Option.some_inj.mp hrun ▸ h
  | cons op ops ih =>
    unfold Operation.script at hrun
    split at hrun
    case h_1 g₁ hstep => exact ih (h.step hstep) hrun
    case h_2 => cases hrun

/-- What is computed of the graph at the end of a script. -/
theorem Edited.exists_script {ops : List Operation} {g : FlowGraph} {p : FlowGraph → Prop} [DecidablePred p]
    (h : Edited g) (hrun : ((Operation.script ops g).map fun g' => decide (p g')) = some true) :
    ∃ g', Edited g' ∧ p g' := by
  obtain ⟨g', hscript, hp⟩ := Option.map_eq_some_iff.mp hrun
  exact ⟨g', h.script hscript, of_decide_eq_true hp⟩

end Midend

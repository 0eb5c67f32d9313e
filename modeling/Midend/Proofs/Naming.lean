import Midend.Context
import Midend.Proofs.Flow.Order
import Midend.Proofs.Graph.Names

/-! # Keeping names

What it means that everything that is read has a name, for the instructions of a scope, and how it is shown that an edit
keeps it so.
-/

namespace Midend

variable {α β γ σ : Type}

namespace Naming

open FlowGraph

/-! ## Scopes -/

/-- What is looked after: the instructions whose inputs have to have names, the blocks that control may come to, the
values that need no name, whether blocks have to keep their form, and whether control has to stay in those blocks. -/
structure Scope where
  insts : InstId → Prop
  blocks : BlockId → Prop
  excused : InstId → Prop
  strict : Prop
  guided : Prop

def Scope.Impartial (S : Scope) : Prop := ∀ d e, S.excused d → S.excused e

/-- Control stays in the blocks of the scope, if only because there are no others. -/
def Scope.Closed (S : Scope) : Prop := S.strict ∧ S.guided ∨ ∀ b, S.blocks b

def Scope.excuse (S : Scope) (d : InstId) : Scope := { S with excused := fun e => S.excused e ∨ e = d }

def Scope.unguided (S : Scope) : Scope := { S with guided := False }

variable {S : Scope} {g g' : FlowGraph} {a d i j : InstId} {b c : BlockId} {n : Node}

/-- An instruction of the scope may read the value. -/
def Usable (S : Scope) (g : FlowGraph) (d : InstId) : Prop := S.insts d ∧ (S.excused d ∨ g.Named d)

theorem Usable.mono (h : Usable S g d) (hext : g.Extends g') : Usable S g' d :=
  ⟨h.1, h.2.imp_right fun hnamed => hnamed.mono hext⟩

/-- Control does not go astray when the instruction is taken out of its block. -/
def Loose (S : Scope) (g : FlowGraph) (i : InstId) : Prop := S.strict → S.guided → g.Plain i

theorem loose_of_plain (h : g.Plain i) : Loose S g i := fun _ _ => h

theorem Loose.mono (h : Loose S g i) (hext : g.Extends g') : Loose S g' i :=
  fun hstrict hguided => (h hstrict hguided).mono hext

theorem loose_unguided : Loose S.unguided g i := fun _ h => False.elim h

/-- An instruction of the scope that may be put into the middle of a block, or taken out of it. -/
structure Inner (S : Scope) (g : FlowGraph) (i : InstId) : Prop where
  mem : S.insts i
  plain : S.strict → g.Plain i

theorem Inner.mono (h : Inner S g i) (hext : g.Extends g') : Inner S g' i :=
  ⟨h.mem, fun hstrict => (h.plain hstrict).mono hext⟩

theorem Inner.loose (h : Inner S g i) : Loose S g i := fun hstrict _ => h.plain hstrict

/-- The instruction refers to what an instruction of the scope may refer to, and is not to be moved if it ends a block.
-/
structure Watched (S : Scope) (g : FlowGraph) (d : Inst) : Prop where
  args : ∀ a ∈ d.args, Usable S g a
  arguments : ∀ a ∈ d.arguments, Inner S g a
  firm : S.strict → d.affectedBySideEffect = .ok false → d.isTerminator = false

theorem Watched.mono {d : Inst} (h : Watched S g d) (hext : g.Extends g') : Watched S g' d :=
  ⟨fun a ha => (h.args a ha).mono hext, fun a ha => (h.arguments a ha).mono hext, h.firm⟩

/-- Nothing that stands behind the instruction ends the block. -/
def Final (g : FlowGraph) (is : List InstId) (i : InstId) : Prop :=
  ∃ front back, is = front ++ i :: back ∧ ∀ j ∈ back, ¬ g.Ends j

theorem final_getLast? {is : List InstId} (h : is.getLast? = some i) : Final g is i := by
  obtain ⟨front, rfl⟩ := List.getLast?_eq_some_iff.mp h
  exact ⟨front, [], rfl, nofun⟩

theorem Final.of_extends {is : List InstId} (h : Final g' is i) (hext : g.Extends g') : Final g is i := by
  obtain ⟨front, back, rfl, hback⟩ := h
  exact ⟨front, back, rfl, fun j hj hends => hback j hj (hends.mono hext)⟩

/-- Where the block is left, control stays in the blocks of the scope. What an earlier terminator names does not matter.
-/
def Stays (S : Scope) (g : FlowGraph) (is : List InstId) : Prop :=
  ∀ i n, Final g is i → g.nodes[i.index]? = some n → ∀ c ∈ n.inst.successors, S.blocks c

/-- The blocks of the scope have nothing in them but instructions of the scope. -/
structure Bounded (S : Scope) (g : FlowGraph) : Prop where
  sound : S.strict → g.layout.Sound
  insts : ∀ b i, S.blocks b → i ∈ g.insts b → S.insts i
  phis : ∀ (b : BlockId) (k : Block), g.blocks[b.index]? = some k → ∀ i ∈ k.phis, S.insts i
  below : ∀ (b : BlockId) (k : Block), S.blocks b → g.blocks[b.index]? = some k → ∀ c ∈ k.dominated, S.blocks c
  ordered : ∀ b, b ∈ g.preorder ∨ b ∈ g.postorder → S.blocks b
  entries : S.blocks graphEntry ∧ S.blocks normalEntry ∧ ∀ b ∈ g.catchEntries, S.blocks b

/-- All that the instructions of the scope read has a name, and control stays in the blocks of the scope. New
instructions belong to the scope. -/
structure Vetted (S : Scope) (g : FlowGraph) : Prop where
  numbered : g.Numbered
  watched : ∀ (i : InstId) (n : Node), g.nodes[i.index]? = some n → S.insts i → Watched S g n.inst
  uses : ∀ (d : InstId) (n : Node), g.nodes[d.index]? = some n → ∀ u ∈ n.inputUses, S.insts u.user ∧ Usable S g d
  initial : ∀ d ∈ g.initialDefinitions, Usable S g d
  bounded : Bounded S g
  stays : S.strict → S.guided → ∀ b, S.blocks b → Stays S g (g.insts b)
  created : ∀ i : InstId, g.nodes.size ≤ i.index → S.insts i

theorem Bounded.congr (h : Bounded S g) (hlayout : g'.layout = g.layout) (hblocks : g'.blocks = g.blocks)
    (hpre : g'.preorder = g.preorder) (hpost : g'.postorder = g.postorder) (hcatch : g'.catchEntries = g.catchEntries) :
    Bounded S g' where
  sound := hlayout ▸ h.sound
  insts := by unfold FlowGraph.insts; rw [hlayout]; exact h.insts
  phis := by rw [hblocks]; exact h.phis
  below := by rw [hblocks]; exact h.below
  ordered := by rw [hpre, hpost]; exact h.ordered
  entries := by rw [hcatch]; exact h.entries

theorem Vetted.blocks_of_last (hg : Vetted S g) (hS : S.Closed) (hb : S.blocks b) (hlast : g.lastInst b = some i)
    {e : Inst} (he : g.inst i = .ok e) (hc : c ∈ e.successors) : S.blocks c := by
  obtain ⟨hstrict, hguided⟩ | hall := hS
  · obtain ⟨n, hn, rfl⟩ := inst_eq_ok.mp he
    exact hg.stays hstrict hguided b hb i n (final_getLast? hlast) hn c hc
  · exact hall c

theorem Vetted.edge (hg : Vetted S g) (hS : S.Closed) (hb : S.blocks b) (hedge : g.Edge b c) : S.blocks c := by
  unfold Edge next at hedge
  split at hedge
  case h_2 => cases hedge
  case h_1 ss hss =>
    unfold succs at hss
    split at hss
    case isTrue =>
      obtain rfl := pure_eq_ok.mp hss
      obtain rfl | hc := List.mem_cons.mp hedge
      · exact hg.bounded.entries.2.1
      · exact hg.bounded.entries.2.2 c hc
    case isFalse =>
      split at hss
      case h_1 =>
        obtain rfl := pure_eq_ok.mp hss
        cases hedge
      case h_2 last hlast =>
        obtain ⟨d, hd, hss⟩ := bind_eq_ok.mp hss
        obtain rfl := pure_eq_ok.mp hss
        exact hg.blocks_of_last hS hb hlast hd hedge

theorem Vetted.blocks_of_reachable (hg : Vetted S g) (hS : S.Closed) (hb : g.Reachable b) : S.blocks b := by
  induction hb with
  | refl => exact hg.bounded.entries.1
  | tail _ hedge ih => exact hg.edge hS ih hedge

theorem Vetted.usable_of_arg (hg : Vetted S g) (hi : S.insts i) {k : Nat} (ha : g.arg i k = .ok a) : Usable S g a := by
  obtain ⟨n, hn, hk⟩ := arg_eq_ok.mp ha
  exact (hg.watched i n hn hi).args a (List.mem_of_getElem? hk)

theorem Vetted.usable_of_args (hg : Vetted S g) (hi : S.insts i) {as : List InstId} (has : g.args i = .ok as)
    (ha : a ∈ as) : Usable S g a := by
  obtain ⟨n, hn, rfl⟩ := args_eq_ok.mp has
  exact (hg.watched i n hn hi).args a ha

theorem Vetted.watched_of_inst (hg : Vetted S g) (hi : S.insts i) {e : Inst} (he : g.inst i = .ok e) :
    Watched S g e := by
  obtain ⟨n, hn, rfl⟩ := inst_eq_ok.mp he
  exact hg.watched i n hn hi

theorem Vetted.uses_of_inputUses (hg : Vetted S g) {us : List Use} (hus : g.inputUses d = .ok us) {u : Use}
    (hu : u ∈ us) : S.insts u.user ∧ Usable S g d := by
  obtain ⟨n, hn, rfl⟩ := inputUses_eq_ok.mp hus
  exact hg.uses d n hn u hu

theorem plain_of_inst {e : Inst} (he : g.inst i = .ok e) (hplain : e.isTerminator = false) : g.Plain i := by
  obtain ⟨n, hn, rfl⟩ := inst_eq_ok.mp he
  exact ⟨n, hn, hplain⟩

theorem plain_of_opcode {op : Opcode} (hop : g.opcode i = .ok op) (hplain : op.isTerminator = false) : g.Plain i := by
  obtain ⟨n, hn, rfl⟩ := opcode_eq_ok.mp hop
  exact ⟨n, hn, hplain⟩

/-! ## Other scopes -/

theorem Bounded.scope {S' : Scope} (h : Bounded S g) (hinsts : S'.insts = S.insts) (hblocks : S'.blocks = S.blocks)
    (hstrict : S'.strict = S.strict) : Bounded S' g where
  sound := by rw [hstrict]; exact h.sound
  insts := by rw [hinsts, hblocks]; exact h.insts
  phis := by rw [hinsts]; exact h.phis
  below := by rw [hblocks]; exact h.below
  ordered := by rw [hblocks]; exact h.ordered
  entries := by rw [hblocks]; exact h.entries

/-- The scopes have the same instructions and blocks, and what may be read in the first may be read in the second. -/
theorem Vetted.scope {S' : Scope} (hg : Vetted S g) (hinsts : S'.insts = S.insts) (hblocks : S'.blocks = S.blocks)
    (hstrict : S'.strict = S.strict) (husable : ∀ d, Usable S g d → Usable S' g d)
    (hstays : S.strict → S'.guided → ∀ b, S.blocks b → Stays S g (g.insts b)) : Vetted S' g where
  numbered := hg.numbered
  watched i n hn hi := by
    rw [hinsts] at hi
    obtain ⟨hargs, harguments, hfirm⟩ := hg.watched i n hn hi
    refine ⟨fun a ha => husable a (hargs a ha), fun a ha => ⟨?_, ?_⟩, ?_⟩
    · exact hinsts ▸ (harguments a ha).mem
    · exact hstrict ▸ (harguments a ha).plain
    · exact hstrict ▸ hfirm
  uses d n hn u hu := by
    rw [hinsts]
    exact (hg.uses d n hn u hu).imp_right (husable d)
  initial d hd := husable d (hg.initial d hd)
  bounded := hg.bounded.scope hinsts hblocks hstrict
  stays h hguided b hb := by
    rw [hblocks] at hb
    rw [hstrict] at h
    unfold Stays
    rw [hblocks]
    exact hstays h hguided b hb
  created := by
    rw [hinsts]
    exact hg.created

theorem Usable.excuse (h : Usable S g d) (e : InstId) : Usable (S.excuse e) g d := ⟨h.1, h.2.imp_left .inl⟩

theorem usable_excuse_self (hd : S.insts d) : Usable (S.excuse d) g d := ⟨hd, .inl (.inr rfl)⟩

theorem Inner.excuse (h : Inner S g i) (d : InstId) : Inner (S.excuse d) g i := ⟨h.mem, h.plain⟩

theorem Vetted.excuse (hg : Vetted S g) (d : InstId) : Vetted (S.excuse d) g :=
  hg.scope rfl rfl rfl (fun _ h => h.excuse d) hg.stays

theorem Usable.settle (h : Usable (S.excuse d) g a) (hd : g.Named d) : Usable S g a := by
  refine ⟨h.1, ?_⟩
  obtain (hexcused | rfl) | hnamed := h.2
  · exact .inl hexcused
  · exact .inr hd
  · exact .inr hnamed

theorem Vetted.settle (hg : Vetted (S.excuse d) g) (hd : g.Named d) : Vetted S g :=
  hg.scope rfl rfl rfl (fun _ h => h.settle hd) hg.stays

theorem Vetted.unguided (hg : Vetted S g) : Vetted S.unguided g := hg.scope rfl rfl rfl (fun _ h => h) fun _ => nofun

theorem Vetted.guide (hg : Vetted S.unguided g) (hstays : ∀ b, S.blocks b → Stays S g (g.insts b)) : Vetted S g :=
  hg.scope rfl rfl rfl (fun _ h => h) fun _ _ => hstays

/-! ## Edits -/

/-- Run from `g`, the edit leads to a vetted graph in which nothing has lost its name. -/
def Vets (S : Scope) (g : FlowGraph) (m : Edit α) (post : α → FlowGraph → Prop) : Prop :=
  Vetted S g → Leads True g m fun a g' => Vetted S g' ∧ g.Extends g' ∧ post a g'

/-- The same where nothing is to be said about the result. -/
abbrev Minds (S : Scope) (g : FlowGraph) (m : Edit α) : Prop := Vets S g m fun _ _ => True

namespace Vets

variable {post post' : α → FlowGraph → Prop} {m : Edit α}

theorem value {x : α} (h : post x g) : Vets S g (pure x) post := fun hg => ⟨hg, .refl g, h⟩

theorem fault {e : Fault} : Vets S g (throw e) post := fun _ => trivial

theorem knowing (h : Vetted S g → Vets S g m post) : Vets S g m post := fun hg => h hg hg

theorem mono (h : Vets S g m post) (himp : ∀ x g', g.Extends g' → post x g' → post' x g') : Vets S g m post' :=
  fun hg => (h hg).mono fun x g' ⟨hg', hext, hpost⟩ => ⟨hg', hext, himp x g' hext hpost⟩

theorem minds (h : Vets S g m post) : Minds S g m := h.mono fun _ _ _ _ => trivial

theorem andThen {post : β → FlowGraph → Prop} {m : Edit β} {f : β → Edit α} (hm : Vets S g m post)
    (hf : ∀ x g', g.Extends g' → post x g' → Vets S g' (f x) post') : Vets S g (m >>= f) post' := by
  intro hg
  rw [Leads.bind_iff]
  refine (hm hg).mono fun x g' ⟨hg', hext, hpost⟩ => ?_
  exact (hf x g' hext hpost hg').mono fun y g'' ⟨hg'', hext', hpost'⟩ => ⟨hg'', hext.trans hext', hpost'⟩

theorem reading {f : FlowGraph → Edit α} (hf : Vets S g (f g) post) : Vets S g ((get : Edit FlowGraph) >>= f) post := hf

theorem lifted {x : Except Fault β} {f : β → Edit α} (hf : ∀ y, x = .ok y → Vets S g (f y) post) :
    Vets S g (liftM x >>= f) post := by
  intro hg
  rw [Leads.bind_iff, Leads.lift_iff]
  exact Yields.of_ok fun y hy => hf y hy hg

theorem either {p : Prop} [Decidable p] {m' : Edit α} (hm : p → Vets S g m post) (hm' : ¬ p → Vets S g m' post) :
    Vets S g (if p then m else m') post := by
  split
  case isTrue h => exact hm h
  case isFalse h => exact hm' h

theorem ignoring {post : Unit → FlowGraph → Prop} (hm : Vets S g m fun _ g' => post () g') :
    Vets S g (discard m) post := by
  intro hg
  rw [Leads.discard_iff]
  exact hm hg

theorem foldlM {xs : List β} {f : α → β → Edit α} {x : α} (inv : α → FlowGraph → Prop) (hstart : inv x g)
    (hstep : ∀ y ∈ xs, ∀ x g', g.Extends g' → inv x g' → Vets S g' (f x y) inv) : Vets S g (xs.foldlM f x) inv := by
  intro hg
  refine (Leads.foldlM (fun _ x g' => Vetted S g' ∧ g.Extends g' ∧ inv x g') ⟨hg, .refl g, hstart⟩ ?_)
  rintro done y rest x g' hxs ⟨hg', hext, hinv⟩
  exact (hstep y (by simp [hxs]) x g' hext hinv hg').mono fun x' g'' ⟨hg'', hext', hinv'⟩ =>
    ⟨hg'', hext.trans hext', hinv'⟩

theorem each {xs : List β} {f : β → Edit PUnit} (hf : ∀ y ∈ xs, ∀ g', g.Extends g' → Minds S g' (f y)) :
    Minds S g (xs.forM f) := by
  intro hg
  refine (Leads.forM_of_forall (fun g' => Vetted S g' ∧ g.Extends g') ⟨hg, .refl g⟩ ?_).mono
    fun _ _ ⟨hg', hext⟩ => ⟨hg', hext, trivial⟩
  rintro y hy g' ⟨hg', hext⟩
  exact (hf y hy g' hext hg').mono fun _ g'' ⟨hg'', hext', _⟩ => ⟨hg'', hext.trans hext'⟩

theorem anyChange {xs : List β} {f : β → Edit Bool} (hf : ∀ y ∈ xs, ∀ g', g.Extends g' → Minds S g' (f y)) :
    Minds S g (Midend.anyChange xs f) :=
  foldlM (fun _ _ => True) trivial fun y hy _ g' hext _ => (hf y hy g' hext).andThen fun _ _ _ _ => value trivial

theorem filterM {xs : List β} {f : β → Edit Bool} (hf : ∀ y ∈ xs, ∀ g', g.Extends g' → Minds S g' (f y)) :
    Minds S g (xs.filterM f) := by
  intro hg
  refine (Leads.filterM_of_forall (fun g' => Vetted S g' ∧ g.Extends g') ⟨hg, .refl g⟩ ?_).mono
    fun _ _ ⟨hg', hext⟩ => ⟨hg', hext, trivial⟩
  rintro y hy g' ⟨hg', hext⟩
  exact (hf y hy g' hext hg').mono fun _ g'' ⟨hg'', hext', _⟩ => ⟨hg'', hext.trans hext'⟩

theorem attemptIf {condition : Bool} {m : Edit Bool} (hm : Minds S g m) : Minds S g (Midend.attemptIf condition m) :=
  either (fun _ => hm) fun _ => value trivial

theorem firstChange {ms : List (Edit Bool)} (hms : ∀ m ∈ ms, ∀ g', g.Extends g' → Minds S g' m) :
    Minds S g (Midend.firstChange ms) := by
  induction ms generalizing g with
  | nil => exact value trivial
  | cons m ms ih =>
    rw [List.forall_mem_cons] at hms
    refine (hms.1 g (.refl g)).andThen fun changed g' hext _ => either (fun _ => value trivial) fun _ => ?_
    exact ih fun m hm g'' hext' => hms.2 m hm g'' (hext.trans hext')

theorem visitInsts {visit : InstId → Edit Bool} (hvisit : ∀ i g', S.insts i → Minds S g' (visit i)) :
    Minds S g (Midend.visitInsts visit) := by
  refine knowing fun hg => reading
    (anyChange fun b hb g₁ _ => knowing fun hg₁ => reading (anyChange fun i hi g₂ _ => ?_))
  have hblock := hg.bounded.ordered b (.inr (List.mem_reverse.mp hb))
  exact reading (either (fun _ => hvisit i g₂ (hg₁.bounded.insts b i hblock hi)) fun _ => value trivial)

theorem also {P : FlowGraph → Prop} (hm : Vets S g m post) (hP : Leads True g m fun _ g' => P g') :
    Vets S g m fun x g' => post x g' ∧ P g' := by
  refine fun hg => ((hm hg).and hP).mono ?_
  rintro x g' ⟨⟨hg', hext, hpost⟩, h⟩
  exact ⟨hg', hext, hpost, h⟩

theorem guiding {m : Edit β} (hm : Vets S.unguided g m fun _ g' => ∀ b, S.blocks b → Stays S g' (g'.insts b)) :
    Minds S g m := by
  refine fun hg => (hm hg.unguided).mono ?_
  rintro _ g' ⟨hg', hext, hstays⟩
  exact ⟨hg'.guide hstays, hext, trivial⟩

/-- A value may go without a name until the edit has given it one. -/
theorem excusing (hm : Vets (S.excuse d) g m fun x g' => g'.Named d ∧ post x g') : Vets S g m post := by
  refine fun hg => (hm (hg.excuse d)).mono fun _ g' ⟨hg', hext, hnamed, hpost⟩ => ?_
  exact ⟨hg'.settle hnamed, hext, hpost⟩

end Vets

/-! ## Edits that carry a value along -/

/-- What holds of the value that is carried along, whatever becomes of the graph. -/
structure Ledger (σ : Type) where
  holds : σ → FlowGraph → Prop
  mono : ∀ s g g', g.Extends g' → holds s g → holds s g'

def Ledger.blank : Ledger σ := ⟨fun _ _ => True, fun _ _ _ _ h => h⟩

variable {L : Ledger σ}

/-- Whatever value is carried along, the computation minds the scope. -/
def Carries (S : Scope) (L : Ledger σ) (g : FlowGraph) (m : StateT σ Edit α) (post : α → FlowGraph → Prop) : Prop :=
  ∀ s, L.holds s g → Vets S g (m.run s) fun r g' => post r.1 g' ∧ L.holds r.2 g'

namespace Carries

variable {m m' : StateT σ Edit α} {post post' : α → FlowGraph → Prop}

theorem value {x : α} (h : post x g) : Carries S L g (pure x : StateT σ Edit α) post := fun _ hs => Vets.value ⟨h, hs⟩

theorem fault {e : Fault} : Carries S L g (throwThe Fault e : StateT σ Edit α) post := fun _ _ _ => trivial

theorem knowing (h : Vetted S g → Carries S L g m post) : Carries S L g m post := fun s hs => .knowing fun hg =>
    h hg s hs

theorem andThen {f : α → StateT σ Edit β} {post' : β → FlowGraph → Prop} (hm : Carries S L g m post)
    (hf : ∀ x g', g.Extends g' → post x g' → Carries S L g' (f x) post') : Carries S L g (m >>= f) post' := by
  intro s hs
  rw [StateT.run_bind]
  exact (hm s hs).andThen fun r g' hext hpost => hf r.1 g' hext hpost.1 r.2 hpost.2

theorem ite {p : Prop} [Decidable p] (hm : p → Carries S L g m post) (hm' : ¬ p → Carries S L g m' post) :
    Carries S L g (if p then m else m') post := by
  split
  case isTrue h => exact hm h
  case isFalse h => exact hm' h

theorem graph {f : FlowGraph → StateT σ Edit α} (hf : Carries S L g (f g) post) :
    Carries S L g ((getThe FlowGraph : StateT σ Edit FlowGraph) >>= f) post := hf

theorem state {f : σ → StateT σ Edit α} (hf : ∀ s, L.holds s g → Carries S L g (f s) post) :
    Carries S L g ((get : StateT σ Edit σ) >>= f) post := fun s hs => hf s hs s hs

theorem read {x : Except Fault β} {f : β → StateT σ Edit α} (hf : ∀ y, x = .ok y → Carries S L g (f y) post) :
    Carries S L g (liftM x >>= f) post := by
  intro s hs
  cases hx : x with
  | ok y => exact hf y hx s hs
  | error e => exact fun _ => trivial

theorem readAll {xs : List β} {f : β → Except Fault γ} {k : List γ → StateT σ Edit α}
    (hk : ∀ ys, List.Forall₂ (fun x y => f x = .ok y) xs ys → Carries S L g (k ys) post) :
    Carries S L g ((xs.mapM fun x => (liftM (f x) : StateT σ Edit γ)) >>= k) post := by
  induction xs generalizing k with
  | nil => exact hk [] .nil
  | cons x xs ih =>
    rw [List.mapM_cons, bind_assoc]
    refine read fun y hy => ?_
    rw [bind_assoc]
    exact ih fun ys hys => hk (y :: ys) (.cons hy hys)

theorem edit {m : Edit α} (hm : Vets S g m post) : Carries S L g (liftM m : StateT σ Edit α) post := by
  intro s hs
  show Vets S g (StateT.run (StateT.lift m) s) _
  rw [StateT.run_lift]
  exact hm.andThen fun _ g' hext hpost => .value ⟨hpost, L.mono s g g' hext hs⟩

theorem noted {f : σ → σ} {post : PUnit → FlowGraph → Prop} (h : post ⟨⟩ g) (hf : ∀ s, L.holds s g → L.holds (f s) g) :
    Carries S L g (modify f : StateT σ Edit PUnit) post := fun s hs => Vets.value ⟨h, hf s hs⟩

theorem note {f : σ → σ} (hf : ∀ s, L.holds s g → L.holds (f s) g) :
    Carries S L g (modify f : StateT σ Edit PUnit) fun _ _ => True := noted trivial hf

theorem ignoring {post : Unit → FlowGraph → Prop} (hm : Carries S L g m fun _ g' => post () g') :
    Carries S L g (discard m) post := by
  show Carries S L g (_ <$> m) post
  rw [map_eq_pure_bind]
  exact hm.andThen fun _ _ _ h => value h

theorem discarding (hm : Carries S L g m fun _ _ => True) : Carries S L g (discard m) fun _ _ => True := ignoring hm

theorem excusing (hm : Carries (S.excuse d) L g m fun _ g' => g'.Named d) : Carries S L g m fun _ _ => True :=
  fun s hs => .excusing ((hm s hs).mono fun _ _ _ hpost => ⟨hpost.1, trivial, hpost.2⟩)

theorem each {xs : List β} {f : β → StateT σ Edit PUnit}
    (hf : ∀ x ∈ xs, ∀ g', g.Extends g' → Carries S L g' (f x) fun _ _ => True) :
    Carries S L g (xs.forM f) fun _ _ => True := by
  induction xs generalizing g with
  | nil => exact value trivial
  | cons x xs ih =>
    rw [List.forall_mem_cons] at hf
    exact (hf.1 g (.refl g)).andThen fun _ g' hext _ => ih fun y hy g'' hext' => hf.2 y hy g'' (hext.trans hext')

theorem foldlM {xs : List β} {f : α → β → StateT σ Edit α} {x : α}
    (hf : ∀ a, ∀ y ∈ xs, ∀ g', g.Extends g' → Carries S L g' (f a y) fun _ _ => True) :
    Carries S L g (xs.foldlM f x) fun _ _ => True := by
  induction xs generalizing g x with
  | nil => exact value trivial
  | cons y xs ih =>
    rw [List.foldlM_cons]
    refine (hf x y List.mem_cons_self g (.refl g)).andThen fun a g' hext _ => ih fun b z hz g'' hext' => ?_
    exact hf b z (List.mem_cons_of_mem y hz) g'' (hext.trans hext')

end Carries

end Naming

end Midend

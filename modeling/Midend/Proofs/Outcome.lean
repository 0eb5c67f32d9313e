import Midend.Ssa

/-! # Outcomes of edits

What is known when a computation has run. Every statement has a proposition `fault` that has to hold where
the computation stops with a fault: with `False` it says that there is none, with `True` it speaks of the
runs without one. A method that is given up is no fault.
-/

namespace Midend

variable {α β γ : Type} {fault : Prop}

/-! ## Walks -/

/-- `holds s x post` says that `x`, run from `s`, ends with `post`. It can be shown one step after another. -/
structure Stepwise {m : Type → Type} [Monad m] {σ : Type}
    (holds : {α : Type} → σ → m α → (α → σ → Prop) → Prop) : Prop where
  pure : ∀ {α : Type} {a : α} {s : σ} {post : α → σ → Prop}, post a s → holds s (Pure.pure a) post
  bind : ∀ {α β : Type} {x : m α} {f : α → m β} {s : σ} {post : β → σ → Prop},
    holds s x (fun a s' => holds s' (f a) post) → holds s (x >>= f) post
  mono : ∀ {α : Type} {x : m α} {s : σ} {post post' : α → σ → Prop}, holds s x post →
    (∀ a s', post a s' → post' a s') → holds s x post'

namespace Stepwise

variable {m : Type → Type} [Monad m] {σ : Type} {holds : {α : Type} → σ → m α → (α → σ → Prop) → Prop}

theorem foldlM (hholds : Stepwise holds) {xs : List α} {f : β → α → m β} {b : β} {s : σ}
    (inv : List α → β → σ → Prop) (hstart : inv [] b s)
    (hstep : ∀ done a rest b s, xs = done ++ a :: rest → inv done b s →
      holds s (f b a) fun b' s' => inv (done ++ [a]) b' s') :
    holds s (xs.foldlM f b) fun b' s' => inv xs b' s' := by
  suffices h : ∀ done rest b s, xs = done ++ rest → inv done b s →
      holds s (rest.foldlM f b) fun b' s' => inv xs b' s' from h [] xs b s rfl hstart
  intro done rest
  induction rest generalizing done with
  | nil =>
    intro b s hxs hinv
    rw [List.append_nil] at hxs
    subst hxs
    exact hholds.pure hinv
  | cons a rest ih =>
    intro b s hxs hinv
    rw [List.foldlM_cons]
    refine hholds.bind (hholds.mono (hstep done a rest b s hxs hinv) fun b' s' hinv' => ?_)
    exact ih (done ++ [a]) b' s' (by simpa using hxs) hinv'

theorem forM (hholds : Stepwise holds) {xs : List α} {f : α → m PUnit} {s : σ} (inv : List α → σ → Prop)
    (hstart : inv [] s)
    (hstep : ∀ done a rest s, xs = done ++ a :: rest → inv done s →
      holds s (f a) fun _ s' => inv (done ++ [a]) s') :
    holds s (xs.forM f) fun _ s' => inv xs s' := by
  suffices h : ∀ done rest s, xs = done ++ rest → inv done s →
      holds s (rest.forM f) fun _ s' => inv xs s' from h [] xs s rfl hstart
  intro done rest
  induction rest generalizing done with
  | nil =>
    intro s hxs hinv
    rw [List.append_nil] at hxs
    subst hxs
    exact hholds.pure hinv
  | cons a rest ih =>
    intro s hxs hinv
    show holds s (f a >>= fun _ => rest.forM f) _
    refine hholds.bind (hholds.mono (hstep done a rest s hxs hinv) fun _ s' hinv' => ?_)
    exact ih (done ++ [a]) s' (by simpa using hxs) hinv'

end Stepwise

/-! ## Reading -/

/-- A value with `post` comes out, or `fault` holds. -/
def Yields (fault : Prop) (x : Except Fault α) (post : α → Prop) : Prop :=
  match x with
  | .ok a => post a
  | .error _ => fault

namespace Yields

@[simp] theorem ok_iff {a : α} {post : α → Prop} : Yields fault (.ok a) post ↔ post a := .rfl

@[simp] theorem error_iff {e : Fault} {post : α → Prop} : Yields fault (.error e) post ↔ fault := .rfl

@[simp] theorem pure_iff {a : α} {post : α → Prop} : Yields fault (pure a) post ↔ post a := .rfl

@[simp] theorem throw_iff {e : Fault} {post : α → Prop} :
    Yields fault (throw e : Except Fault α) post ↔ fault := .rfl

@[simp] theorem bind_iff {x : Except Fault α} {f : α → Except Fault β} {post : β → Prop} :
    Yields fault (x >>= f) post ↔ Yields fault x fun a => Yields fault (f a) post := by
  cases x <;> rfl

@[simp] theorem map_iff {x : Except Fault α} {f : α → β} {post : β → Prop} :
    Yields fault (f <$> x) post ↔ Yields fault x fun a => post (f a) := by
  cases x <;> rfl

@[simp] theorem orFault_iff {x : Option α} {e : Fault} {post : α → Prop} :
    Yields fault (orFault x e) post ↔ (∀ a, x = some a → post a) ∧ (x = none → fault) := by
  cases x <;> simp [orFault, Yields]

theorem mono {x : Except Fault α} {post post' : α → Prop} (h : Yields fault x post)
    (himp : ∀ a, x = .ok a → post a → post' a) : Yields fault x post' := by
  cases x with
  | ok a => exact himp a rfl h
  | error e => exact h

theorem of_ok {x : Except Fault α} {post : α → Prop} (h : ∀ a, x = .ok a → post a) :
    Yields True x post := by
  cases x with
  | ok a => exact h a rfl
  | error e => trivial

theorem of_ok_or {x : Except Fault α} {post : α → Prop} (hok : fault ∨ ∃ a, x = .ok a)
    (h : ∀ a, x = .ok a → post a) : Yields fault x post := by
  cases x with
  | ok a => exact h a rfl
  | error e => exact hok.resolve_right (by simp)

theorem post_of_ok {x : Except Fault α} {post : α → Prop} (h : Yields fault x post) {a : α}
    (hx : x = .ok a) : post a := by
  subst hx
  exact h

theorem exists_ok {x : Except Fault α} {post : α → Prop} (h : Yields False x post) :
    ∃ a, x = .ok a ∧ post a := by
  cases x with
  | ok a => exact ⟨a, rfl, h⟩
  | error e => exact h.elim

theorem stepwise : Stepwise fun {_} (s : Unit) x post => Yields fault x fun a => post a s where
  pure h := h
  bind := bind_iff.mpr
  mono h himp := h.mono fun a _ => himp a ()

theorem foldlM {xs : List α} {f : β → α → Except Fault β} {b : β} (inv : List α → β → Prop) (hstart : inv [] b)
    (hstep : ∀ done a rest b, xs = done ++ a :: rest → inv done b →
      Yields fault (f b a) fun b' => inv (done ++ [a]) b') :
    Yields fault (xs.foldlM f b) fun b' => inv xs b' :=
  stepwise.foldlM (s := ()) (fun done b _ => inv done b) hstart fun done a rest b _ => hstep done a rest b

end Yields

/-! ## Edits -/

/-- Run from `g`, the edit ends with a value and a graph that satisfy `post`, or `fault` holds. -/
def Leads (fault : Prop) (g : FlowGraph) (m : Edit α) (post : α → FlowGraph → Prop) : Prop :=
  Yields fault (m g) fun r => post r.1 r.2

namespace Leads

variable {g : FlowGraph}

@[simp] theorem pure_iff {a : α} {post : α → FlowGraph → Prop} :
    Leads fault g (pure a) post ↔ post a g := .rfl

@[simp] theorem throw_iff {e : Fault} {post : α → FlowGraph → Prop} :
    Leads fault g (throw e : Edit α) post ↔ fault := .rfl

@[simp] theorem bind_iff {m : Edit α} {f : α → Edit β} {post : β → FlowGraph → Prop} :
    Leads fault g (m >>= f) post ↔ Leads fault g m fun a g' => Leads fault g' (f a) post := by
  simp only [Leads, bind, StateT.bind]
  cases m g <;> rfl

@[simp] theorem map_iff {m : Edit α} {f : α → β} {post : β → FlowGraph → Prop} :
    Leads fault g (f <$> m) post ↔ Leads fault g m fun a g' => post (f a) g' := by
  simp only [Leads, Functor.map, StateT.map]
  cases m g <;> rfl

@[simp] theorem discard_iff {m : Edit α} {post : Unit → FlowGraph → Prop} :
    Leads fault g (discard m) post ↔ Leads fault g m fun _ g' => post () g' := map_iff

@[simp] theorem get_iff {post : FlowGraph → FlowGraph → Prop} :
    Leads fault g (get : Edit FlowGraph) post ↔ post g g := .rfl

@[simp] theorem getThe_iff {post : FlowGraph → FlowGraph → Prop} :
    Leads fault g (getThe FlowGraph : Edit FlowGraph) post ↔ post g g := .rfl

@[simp] theorem set_iff {g' : FlowGraph} {post : PUnit → FlowGraph → Prop} :
    Leads fault g (set g' : Edit PUnit) post ↔ post ⟨⟩ g' := .rfl

@[simp] theorem modify_iff {f : FlowGraph → FlowGraph} {post : PUnit → FlowGraph → Prop} :
    Leads fault g (modify f : Edit PUnit) post ↔ post ⟨⟩ (f g) := .rfl

@[simp] theorem lift_iff {x : Except Fault α} {post : α → FlowGraph → Prop} :
    Leads fault g (liftM x : Edit α) post ↔ Yields fault x fun a => post a g := by
  cases x <;> rfl

@[simp] theorem mapM_lift_iff {xs : List α} {f : α → Except Fault β} {post : List β → FlowGraph → Prop} :
    Leads fault g (xs.mapM fun x => (liftM (f x) : Edit β)) post ↔
      Yields fault (xs.mapM f) fun ys => post ys g := by
  induction xs generalizing post with
  | nil => simp
  | cons x xs ih => simp [List.mapM_cons, ih]

theorem ite_iff {c : Prop} [Decidable c] {m n : Edit α} {post : α → FlowGraph → Prop} :
    Leads fault g (if c then m else n) post ↔
      (c → Leads fault g m post) ∧ (¬ c → Leads fault g n post) := by
  by_cases h : c <;> simp [h]

theorem mono {m : Edit α} {post post' : α → FlowGraph → Prop} (h : Leads fault g m post)
    (himp : ∀ a g', post a g' → post' a g') : Leads fault g m post' :=
  Yields.mono h fun r _ => himp r.1 r.2

theorem and {m : Edit α} {post post' : α → FlowGraph → Prop} (h : Leads fault g m post)
    (h' : Leads fault g m post') : Leads fault g m fun a g' => post a g' ∧ post' a g' := by
  unfold Leads Yields at *
  split <;> simp_all

theorem post_of_ok {m : Edit α} {post : α → FlowGraph → Prop} (h : Leads fault g m post) {a : α}
    {g' : FlowGraph} (hm : m g = .ok (a, g')) : post a g' :=
  Yields.post_of_ok h hm

theorem of_ok {m : Edit α} {post : α → FlowGraph → Prop}
    (h : ∀ a g', m g = .ok (a, g') → post a g') : Leads True g m post :=
  Yields.of_ok fun r hr => h r.1 r.2 hr

theorem iff_of_run {m : Edit α} {post : α → FlowGraph → Prop} {a : α} {g' : FlowGraph} (h : m g = .ok (a, g')) :
    Leads fault g m post ↔ post a g' := by
  unfold Leads
  rw [h, Yields.ok_iff]

theorem stepwise : Stepwise fun {_} g m post => Leads fault g m post where
  pure := pure_iff.mpr
  bind := bind_iff.mpr
  mono := mono

theorem forM {xs : List α} {f : α → Edit PUnit} (inv : List α → FlowGraph → Prop) (hstart : inv [] g)
    (hstep : ∀ done a rest g, xs = done ++ a :: rest → inv done g →
      Leads fault g (f a) fun _ g' => inv (done ++ [a]) g') :
    Leads fault g (xs.forM f) fun _ g' => inv xs g' :=
  stepwise.forM inv hstart hstep

theorem foldlM {xs : List α} {f : β → α → Edit β} {b : β} (inv : List α → β → FlowGraph → Prop)
    (hstart : inv [] b g)
    (hstep : ∀ done a rest b g, xs = done ++ a :: rest → inv done b g →
      Leads fault g (f b a) fun b' g' => inv (done ++ [a]) b' g') :
    Leads fault g (xs.foldlM f b) fun b' g' => inv xs b' g' :=
  stepwise.foldlM inv hstart hstep

theorem forM_of_forall {xs : List α} {f : α → Edit PUnit} (inv : FlowGraph → Prop) (hstart : inv g)
    (hstep : ∀ a ∈ xs, ∀ g, inv g → Leads fault g (f a) fun _ g' => inv g') :
    Leads fault g (xs.forM f) fun _ g' => inv g' :=
  forM (fun _ => inv) hstart fun done a rest g hxs => hstep a (by simp [hxs]) g

theorem anyChange {xs : List α} {f : α → Edit Bool} (inv : List α → Bool → FlowGraph → Prop) (hstart : inv [] false g)
    (hstep : ∀ done a rest changed g, xs = done ++ a :: rest → inv done changed g →
      Leads fault g (f a) fun r g' => inv (done ++ [a]) (r || changed) g') :
    Leads fault g (Midend.anyChange xs f) fun changed g' => inv xs changed g' := by
  unfold Midend.anyChange
  refine foldlM inv hstart fun done a rest changed g hxs hinv => ?_
  rw [bind_iff]
  exact hstep done a rest changed g hxs hinv

theorem anyChange_of_forall {xs : List α} {f : α → Edit Bool} (inv : FlowGraph → Prop) (hstart : inv g)
    (hstep : ∀ a ∈ xs, ∀ g, inv g → Leads fault g (f a) fun _ g' => inv g') :
    Leads fault g (Midend.anyChange xs f) fun _ g' => inv g' :=
  anyChange (fun _ _ => inv) hstart fun done a rest _ g hxs => hstep a (by simp [hxs]) g

theorem anyChange_idle {xs : List α} {f : α → Edit Bool}
    (hidle : ∀ a ∈ xs, Leads fault g (f a) fun changed g' => changed = false ∧ g' = g) :
    Leads fault g (Midend.anyChange xs f) fun changed g' => changed = false ∧ g' = g := by
  refine anyChange (fun _ changed g' => changed = false ∧ g' = g) ⟨rfl, rfl⟩ ?_
  rintro done a rest _ _ hxs ⟨rfl, rfl⟩
  refine (hidle a (by simp [hxs])).mono ?_
  rintro _ _ ⟨rfl, rfl⟩
  exact ⟨rfl, rfl⟩

/-- If every item that tells of no change keeps `r` and every other one may do anything, so does the walk. -/
theorem anyChange_still {xs : List α} {f : α → Edit Bool} {r : FlowGraph → FlowGraph → Prop} (hrefl : r g g)
    (htrans : ∀ g₁ g₂ g₃, r g₁ g₂ → r g₂ g₃ → r g₁ g₃)
    (hstill : ∀ a ∈ xs, ∀ g', r g g' → Leads True g' (f a) fun changed g'' => changed = false → r g' g'') :
    Leads True g (Midend.anyChange xs f) fun changed g' => changed = false → r g g' := by
  refine anyChange (fun _ changed g' => changed = false → r g g') (fun _ => hrefl) ?_
  intro done a rest changed g' hxs hinv
  cases changed with
  | true => exact of_ok fun b g'' _ hb => by simp at hb
  | false =>
    refine (hstill a (by simp [hxs]) g' (hinv rfl)).mono fun b g'' hb hchanged => ?_
    exact htrans g g' g'' (hinv rfl) (hb (by simpa using hchanged))

theorem filterM_of_forall {xs : List α} {f : α → Edit Bool} (inv : FlowGraph → Prop) (hstart : inv g)
    (hstep : ∀ a ∈ xs, ∀ g, inv g → Leads fault g (f a) fun _ g' => inv g') :
    Leads fault g (xs.filterM f) fun _ g' => inv g' := by
  have haux : ∀ (xs acc : List α) (g : FlowGraph), (∀ a ∈ xs, ∀ g, inv g → Leads fault g (f a) fun _ g' => inv g') →
      inv g → Leads fault g (List.filterAuxM f xs acc) fun _ g' => inv g' := by
    intro xs
    induction xs with
    | nil => exact fun _ _ _ hg => hg
    | cons x xs ih =>
      intro acc g hall hg
      rw [List.forall_mem_cons] at hall
      rw [List.filterAuxM, bind_iff]
      exact (hall.1 g hg).mono fun keep g' hg' => ih _ g' hall.2 hg'
  rw [List.filterM, bind_iff]
  exact (haux xs [] g hstep hstart).mono fun _ _ hg => hg

end Leads

/-! ## Edits that carry a state -/

/-- Run from `g` with the state `s`, the edit ends with a value, a state and a graph that satisfy `post`, or `fault`
holds. -/
def Threads {σ : Type} (fault : Prop) (g : FlowGraph) (s : σ) (m : StateT σ Edit α) (post : α → σ → FlowGraph → Prop) :
    Prop :=
  Leads fault g (m.run s) fun r g' => post r.1 r.2 g'

namespace Threads

variable {σ : Type} {g : FlowGraph} {s : σ}

@[simp] theorem pure_iff {a : α} {post : α → σ → FlowGraph → Prop} :
    Threads fault g s (pure a) post ↔ post a s g := .rfl

@[simp] theorem bind_iff {m : StateT σ Edit α} {f : α → StateT σ Edit β} {post : β → σ → FlowGraph → Prop} :
    Threads fault g s (m >>= f) post ↔ Threads fault g s m fun a s' g' => Threads fault g' s' (f a) post := by
  simp only [Threads, StateT.run_bind, Leads.bind_iff]

@[simp] theorem throwThe_iff {e : Fault} {post : α → σ → FlowGraph → Prop} :
    Threads fault g s (throwThe Fault e : StateT σ Edit α) post ↔ fault := .rfl

@[simp] theorem get_iff {post : σ → σ → FlowGraph → Prop} :
    Threads fault g s (get : StateT σ Edit σ) post ↔ post s s g := .rfl

@[simp] theorem getThe_iff {post : FlowGraph → σ → FlowGraph → Prop} :
    Threads fault g s (getThe FlowGraph : StateT σ Edit FlowGraph) post ↔ post g s g := .rfl

@[simp] theorem modify_iff {f : σ → σ} {post : PUnit → σ → FlowGraph → Prop} :
    Threads fault g s (modify f : StateT σ Edit PUnit) post ↔ post ⟨⟩ (f s) g := .rfl

@[simp] theorem lift_iff {m : Edit α} {post : α → σ → FlowGraph → Prop} :
    Threads fault g s (liftM m : StateT σ Edit α) post ↔ Leads fault g m fun a g' => post a s g' := by
  show Leads fault g (StateT.run (StateT.lift m) s) _ ↔ _
  simp only [StateT.run_lift, Leads.bind_iff, Leads.pure_iff]

@[simp] theorem read_iff {x : Except Fault α} {post : α → σ → FlowGraph → Prop} :
    Threads fault g s (liftM x : StateT σ Edit α) post ↔ Yields fault x fun a => post a s g := by
  cases x <;> rfl

@[simp] theorem map_iff {m : StateT σ Edit α} {f : α → β} {post : β → σ → FlowGraph → Prop} :
    Threads fault g s (f <$> m) post ↔ Threads fault g s m fun a s' g' => post (f a) s' g' := by
  rw [map_eq_pure_bind, bind_iff]
  rfl

@[simp] theorem discard_iff {m : StateT σ Edit α} {post : Unit → σ → FlowGraph → Prop} :
    Threads fault g s (discard m) post ↔ Threads fault g s m fun _ s' g' => post () s' g' := map_iff

@[simp] theorem mapM_read_iff {xs : List α} {f : α → Except Fault β} {post : List β → σ → FlowGraph → Prop} :
    Threads fault g s (xs.mapM fun x => (liftM (f x) : StateT σ Edit β)) post ↔
      Yields fault (xs.mapM f) fun ys => post ys s g := by
  induction xs generalizing post with
  | nil => simp
  | cons x xs ih => simp [List.mapM_cons, ih]

theorem ite_iff {c : Prop} [Decidable c] {m m' : StateT σ Edit α} {post : α → σ → FlowGraph → Prop} :
    Threads fault g s (if c then m else m') post ↔
      (c → Threads fault g s m post) ∧ (¬ c → Threads fault g s m' post) := by
  by_cases hc : c <;> simp [hc]

theorem mono {m : StateT σ Edit α} {post post' : α → σ → FlowGraph → Prop} (h : Threads fault g s m post)
    (himp : ∀ a s' g', post a s' g' → post' a s' g') : Threads fault g s m post' :=
  Leads.mono h fun r g' => himp r.1 r.2 g'

theorem and_of_ok {m : StateT σ Edit α} {post post' : α → σ → FlowGraph → Prop} (h : Threads fault g s m post)
    (h' : Threads True g s m post') : Threads fault g s m fun a s' g' => post a s' g' ∧ post' a s' g' := by
  unfold Threads Leads Yields at *
  split <;> simp_all

theorem exists_ok {m : StateT σ Edit α} {post : α → σ → FlowGraph → Prop} (h : Threads False g s m post) :
    ∃ a s' g', m.run s g = .ok ((a, s'), g') ∧ post a s' g' := by
  obtain ⟨⟨⟨a, s'⟩, g'⟩, hrun, hpost⟩ := Yields.exists_ok h
  exact ⟨a, s', g', hrun, hpost⟩

theorem iff_of_run {m : StateT σ Edit α} {post : α → σ → FlowGraph → Prop} {a : α} {s' : σ} {g' : FlowGraph}
    (h : m.run s g = .ok ((a, s'), g')) : Threads fault g s m post ↔ post a s' g' :=
  Leads.iff_of_run h

theorem stepwise : Stepwise fun {_} (w : σ × FlowGraph) m post =>
    Threads fault w.2 w.1 m fun a s g => post a (s, g) where
  pure := fun h => h
  bind := fun h => bind_iff.mpr h
  mono := fun h himp => h.mono fun a s g => himp a (s, g)

theorem forM {xs : List α} {f : α → StateT σ Edit PUnit} (inv : List α → σ → FlowGraph → Prop) (hstart : inv [] s g)
    (hstep : ∀ done a rest s g, xs = done ++ a :: rest → inv done s g →
      Threads fault g s (f a) fun _ s' g' => inv (done ++ [a]) s' g') :
    Threads fault g s (xs.forM f) fun _ s' g' => inv xs s' g' :=
  stepwise.forM (s := (s, g)) (fun done w => inv done w.1 w.2) hstart fun done a rest w => hstep done a rest w.1 w.2

theorem foldlM {xs : List α} {f : β → α → StateT σ Edit β} {b : β} (inv : List α → β → σ → FlowGraph → Prop)
    (hstart : inv [] b s g)
    (hstep : ∀ done a rest b s g, xs = done ++ a :: rest → inv done b s g →
      Threads fault g s (f b a) fun b' s' g' => inv (done ++ [a]) b' s' g') :
    Threads fault g s (xs.foldlM f b) fun b' s' g' => inv xs b' s' g' :=
  stepwise.foldlM (s := (s, g)) (fun done b w => inv done b w.1 w.2) hstart fun done a rest b w =>
    hstep done a rest b w.1 w.2

theorem forM_of_forall {xs : List α} {f : α → StateT σ Edit PUnit} (inv : σ → FlowGraph → Prop) (hstart : inv s g)
    (hstep : ∀ a ∈ xs, ∀ s g, inv s g → Threads fault g s (f a) fun _ s' g' => inv s' g') :
    Threads fault g s (xs.forM f) fun _ s' g' => inv s' g' :=
  forM (fun _ => inv) hstart fun done a rest s g hxs => hstep a (by simp [hxs]) s g

end Threads

/-! ## Construction and renaming -/

/-- The same for edits that may give the method up, and only do it for a reason that `bail` allows. -/
def Ends (fault : Prop) (bail : Bailout → Prop) (g : FlowGraph) (m : Construct α) (post : α → FlowGraph → Prop) :
    Prop :=
  match m.run g with
  | .ok (.ok a, g') => post a g'
  | .ok (.error b, _) => bail b
  | .error _ => fault

namespace Ends

variable {g : FlowGraph} {bail : Bailout → Prop}

@[simp] theorem pure_iff {a : α} {post : α → FlowGraph → Prop} :
    Ends fault bail g (pure a) post ↔ post a g := .rfl

@[simp] theorem bind_iff {m : Construct α} {f : α → Construct β} {post : β → FlowGraph → Prop} :
    Ends fault bail g (m >>= f) post ↔ Ends fault bail g m fun a g' => Ends fault bail g' (f a) post := by
  simp only [Ends, ExceptT.run_bind]
  simp only [bind, StateT.bind]
  cases m.run g with
  | error e => rfl
  | ok r =>
    obtain ⟨r, g'⟩ := r
    cases r <;> rfl

@[simp] theorem discard_iff {m : Construct α} {post : Unit → FlowGraph → Prop} :
    Ends fault bail g (discard m) post ↔ Ends fault bail g m fun _ g' => post () g' := by
  show Ends fault bail g (_ <$> m) post ↔ _
  rw [map_eq_pure_bind, bind_iff]
  rfl

@[simp] theorem giveUp_iff {d : Defect} {post : α → FlowGraph → Prop} :
    Ends fault bail g (Ssa.giveUp d : Construct α) post ↔ bail (.malformedGraph d) := .rfl

@[simp] theorem getThe_iff {post : FlowGraph → FlowGraph → Prop} :
    Ends fault bail g (getThe FlowGraph : Construct FlowGraph) post ↔ post g g := .rfl

@[simp] theorem lift_iff {m : Edit α} {post : α → FlowGraph → Prop} :
    Ends fault bail g (liftM m : Construct α) post ↔ Leads fault g m post := by
  show Ends fault bail g (ExceptT.lift m) post ↔ Leads fault g m post
  simp only [Ends, ExceptT.run_lift, Leads, Yields, Functor.map, StateT.map]
  cases m g <;> rfl

@[simp] theorem read_iff {x : Except Fault α} {post : α → FlowGraph → Prop} :
    Ends fault bail g (liftM x : Construct α) post ↔ Yields fault x fun a => post a g := by
  show Ends fault bail g (ExceptT.lift (StateT.lift x)) post ↔ _
  cases x <;> rfl

theorem mono {m : Construct α} {post post' : α → FlowGraph → Prop} (h : Ends fault bail g m post)
    (himp : ∀ a g', post a g' → post' a g') : Ends fault bail g m post' := by
  unfold Ends at *
  split at h
  · exact himp _ _ h
  · exact h
  · exact h

theorem weaken {fault' : Prop} {bail' : Bailout → Prop} {m : Construct α} {post : α → FlowGraph → Prop}
    (h : Ends fault bail g m post) (hbail : ∀ d, bail d → bail' d) (hfault : fault → fault') :
    Ends fault' bail' g m post := by
  unfold Ends at *
  split at h
  · exact h
  · exact hbail _ h
  · exact hfault h

theorem stepwise : Stepwise fun {_} g m post => Ends fault bail g m post where
  pure := pure_iff.mpr
  bind := bind_iff.mpr
  mono := mono

theorem cases {m : Construct α} {post : α → FlowGraph → Prop} (h : Ends False bail g m post) :
    (∃ a g', m.run g = .ok (.ok a, g') ∧ post a g') ∨ ∃ b g', m.run g = .ok (.error b, g') ∧ bail b := by
  unfold Ends at h
  split at h
  case h_1 a g' hrun => exact .inl ⟨a, g', hrun, h⟩
  case h_2 b g' hrun => exact .inr ⟨b, g', hrun, h⟩
  case h_3 => exact h.elim

end Ends

def Gives (fault : Prop) (g : FlowGraph) (m : Construct α) (post : α → FlowGraph → Prop) : Prop :=
  Ends fault (fun _ => True) g m post

theorem Ends.gives {g : FlowGraph} {bail : Bailout → Prop} {m : Construct α} {post : α → FlowGraph → Prop}
    (h : Ends fault bail g m post) : Gives fault g m post := by
  unfold Gives Ends at *
  split at h
  · exact h
  · trivial
  · exact h

namespace Gives

variable {g : FlowGraph}

@[simp] theorem pure_iff {a : α} {post : α → FlowGraph → Prop} :
    Gives fault g (pure a) post ↔ post a g := .rfl

@[simp] theorem bind_iff {m : Construct α} {f : α → Construct β} {post : β → FlowGraph → Prop} :
    Gives fault g (m >>= f) post ↔ Gives fault g m fun a g' => Gives fault g' (f a) post := Ends.bind_iff

@[simp] theorem map_iff {m : Construct α} {f : α → β} {post : β → FlowGraph → Prop} :
    Gives fault g (f <$> m) post ↔ Gives fault g m fun a g' => post (f a) g' := by
  rw [map_eq_pure_bind, bind_iff]
  rfl

@[simp] theorem discard_iff {m : Construct α} {post : Unit → FlowGraph → Prop} :
    Gives fault g (discard m) post ↔ Gives fault g m fun _ g' => post () g' := map_iff

@[simp] theorem throw_iff {b : Bailout} {post : α → FlowGraph → Prop} :
    Gives fault g (throw b : Construct α) post ↔ True := .rfl

@[simp] theorem throwThe_iff {b : Bailout} {post : α → FlowGraph → Prop} :
    Gives fault g (throwThe Bailout b : Construct α) post ↔ True := .rfl

@[simp] theorem giveUp_iff {d : Defect} {post : α → FlowGraph → Prop} :
    Gives fault g (Ssa.giveUp d : Construct α) post ↔ True := .rfl

@[simp] theorem getThe_iff {post : FlowGraph → FlowGraph → Prop} :
    Gives fault g (getThe FlowGraph : Construct FlowGraph) post ↔ post g g := .rfl

@[simp] theorem lift_iff {m : Edit α} {post : α → FlowGraph → Prop} :
    Gives fault g (liftM m : Construct α) post ↔ Leads fault g m post := Ends.lift_iff

@[simp] theorem read_iff {x : Except Fault α} {post : α → FlowGraph → Prop} :
    Gives fault g (liftM x : Construct α) post ↔ Yields fault x fun a => post a g := Ends.read_iff

theorem mono {m : Construct α} {post post' : α → FlowGraph → Prop} (h : Gives fault g m post)
    (himp : ∀ a g', post a g' → post' a g') : Gives fault g m post' := Ends.mono h himp

theorem with_run {m : Construct α} {post : α → FlowGraph → Prop} (h : Gives fault g m post) :
    Gives fault g m fun a g' => m.run g = .ok (.ok a, g') ∧ post a g' := by
  unfold Gives Ends at *
  split at h
  case h_1 hrun => exact ⟨hrun, h⟩
  case h_2 => exact h
  case h_3 => exact h

theorem stepwise : Stepwise fun {_} g m post => Gives fault g m post := Ends.stepwise

theorem exists_ok {m : Construct α} {post : α → FlowGraph → Prop} (h : Gives False g m post) :
    ∃ r g', m.run g = .ok (r, g') ∧ ∀ a, r = .ok a → post a g' := by
  obtain ⟨a, g', hrun, hpost⟩ | ⟨b, g', hrun, -⟩ := Ends.cases h
  · exact ⟨.ok a, g', hrun, by rintro _ ⟨⟩; exact hpost⟩
  · exact ⟨.error b, g', hrun, nofun⟩

end Gives

/-- The same for renaming, which knows `s` at the start and gives up for a reason that `bail` allows. -/
def Renames (fault : Prop) (bail : Bailout → Prop) (g : FlowGraph) (s : Ssa.Names) (m : Ssa.Rename α)
    (post : α → Ssa.Names → FlowGraph → Prop) : Prop :=
  Ends fault bail g (m.run s) fun r g' => post r.1 r.2 g'

namespace Renames

variable {bail : Bailout → Prop} {g : FlowGraph} {s : Ssa.Names}

@[simp] theorem pure_iff {a : α} {post : α → Ssa.Names → FlowGraph → Prop} :
    Renames fault bail g s (pure a) post ↔ post a s g := .rfl

@[simp] theorem bind_iff {m : Ssa.Rename α} {f : α → Ssa.Rename β} {post : β → Ssa.Names → FlowGraph → Prop} :
    Renames fault bail g s (m >>= f) post ↔ Renames fault bail g s m fun a s' g' =>
    Renames fault bail g' s' (f a) post := by
  simp only [Renames, StateT.run_bind, Ends.bind_iff]

@[simp] theorem throwThe_iff {b : Bailout} {post : α → Ssa.Names → FlowGraph → Prop} :
    Renames fault bail g s (throwThe Bailout b : Ssa.Rename α) post ↔ bail b := .rfl

@[simp] theorem fault_iff {e : Fault} {post : α → Ssa.Names → FlowGraph → Prop} :
    Renames fault bail g s (throwThe Fault e : Ssa.Rename α) post ↔ fault := .rfl

@[simp] theorem renameGiveUp_iff {d : Defect} {post : α → Ssa.Names → FlowGraph → Prop} :
    Renames fault bail g s (Ssa.renameGiveUp d : Ssa.Rename α) post ↔ bail (.malformedGraph d) := .rfl

@[simp] theorem getThe_iff {post : FlowGraph → Ssa.Names → FlowGraph → Prop} :
    Renames fault bail g s (getThe FlowGraph : Ssa.Rename FlowGraph) post ↔ post g s g := .rfl

@[simp] theorem get_iff {post : Ssa.Names → Ssa.Names → FlowGraph → Prop} :
    Renames fault bail g s (get : Ssa.Rename Ssa.Names) post ↔ post s s g := .rfl

@[simp] theorem modify_iff {f : Ssa.Names → Ssa.Names} {post : PUnit → Ssa.Names → FlowGraph → Prop} :
    Renames fault bail g s (modify f : Ssa.Rename PUnit) post ↔ post ⟨⟩ (f s) g := .rfl

@[simp] theorem lift_iff {m : Edit α} {post : α → Ssa.Names → FlowGraph → Prop} :
    Renames fault bail g s (liftM m : Ssa.Rename α) post ↔ Leads fault g m fun a g' => post a s g' := by
  show Ends fault bail g (StateT.run (StateT.lift (liftM m)) s) _ ↔ _
  simp only [StateT.run_lift, Ends.bind_iff, Ends.lift_iff, Ends.pure_iff]

@[simp] theorem read_iff {x : Except Fault α} {post : α → Ssa.Names → FlowGraph → Prop} :
    Renames fault bail g s (liftM x : Ssa.Rename α) post ↔ Yields fault x fun a => post a s g := by
  cases x <;> rfl

@[simp] theorem discard_iff {m : Ssa.Rename α} {post : Unit → Ssa.Names → FlowGraph → Prop} :
    Renames fault bail g s (discard m) post ↔ Renames fault bail g s m fun _ s' g' => post () s' g' := by
  show Renames fault bail g s (_ <$> m) post ↔ _
  rw [map_eq_pure_bind, bind_iff]
  rfl

theorem mono {m : Ssa.Rename α} {post post' : α → Ssa.Names → FlowGraph → Prop} (h : Renames fault bail g s m post)
    (himp : ∀ a s' g', post a s' g' → post' a s' g') : Renames fault bail g s m post' :=
  Ends.mono h fun r g' => himp r.1 r.2 g'

theorem stepwise : Stepwise fun {_} (w : Ssa.Names × FlowGraph) m post =>
    Renames fault bail w.2 w.1 m fun a s g => post a (s, g) where
  pure := fun h => h
  bind := fun h => bind_iff.mpr h
  mono := fun h himp => h.mono fun a s g => himp a (s, g)

theorem read {x : Except Fault α} {post : α → Ssa.Names → FlowGraph → Prop} (h : ∀ a, x = .ok a → post a s g) :
    Renames True bail g s (liftM x : Ssa.Rename α) post := read_iff.mpr (Yields.of_ok h)

theorem lift {m : Edit α} {post : α → Ssa.Names → FlowGraph → Prop} (h : ∀ a g', post a s g') :
    Renames True bail g s (liftM m : Ssa.Rename α) post := lift_iff.mpr (Leads.of_ok fun a g' _ => h a g')

/-- What is known of the end of a run holds where the run does not give up. -/
theorem with_bail {m : Ssa.Rename α} {post : α → Ssa.Names → FlowGraph → Prop}
    (h : Renames False (fun _ => True) g s m post) (hbail : Renames True bail g s m fun _ _ _ => True) :
    Renames True bail g s m post := by
  unfold Renames Ends at *
  split at h
  case h_1 => exact h
  case h_2 hrun => simpa only [hrun] using hbail
  case h_3 => exact h.elim

theorem foldlM_of_forall {xs : List α} {f : β → α → Ssa.Rename β} {b : β}
    (hstep : ∀ a ∈ xs, ∀ b g s, Renames True bail g s (f b a) fun _ _ _ => True) :
    Renames True bail g s (xs.foldlM f b) fun _ _ _ => True :=
  stepwise.foldlM (s := (s, g)) (fun _ _ _ => True) trivial fun done a rest b w hxs _ =>
    hstep a (by simp [hxs]) b w.2 w.1

end Renames

end Midend

import Mathlib.Data.List.Forall2

/-! # Programs with state and exits

A C function over file-scope variables is a function of the state that either
returns a value with the new state or ends the process. `Prog ε σ α` is that
function, `ε` naming the ways the process ends. Loops carry their fuel, so a
loop that runs dry is one more exit and never a silent success.

`wp` is the weakest precondition of a program at one state. Its rules turn a
program into a formula, and the rules for loops take an invariant (and, where
the loop has to return, a measure).
-/
namespace Dp4c.Lib

theorem except_bind_ok {ε α β : Type} {x : Except ε α} {f : α → Except ε β} {b : β}
    (h : (x >>= f) = .ok b) : ∃ a, x = .ok a ∧ f a = .ok b := by
  cases x with
  | error e => cases h
  | ok a => exact ⟨a, rfl, h⟩

/-- A result seen through a function is a result. -/
theorem ok_of_toOption {ε α β : Type} {x : Except ε α} {f : α → β} {b : β}
    (h : x.toOption.map f = some b) : ∃ a, x = .ok a ∧ f a = b := by
  cases x with
  | error e => cases h
  | ok a => exact ⟨a, rfl, Option.some.inj h⟩

/-- A traversal that succeeds has a result for each element. -/
theorem mapM_ok_iff {ε α β : Type} {f : α → Except ε β} {l : List α} {r : List β} :
    l.mapM f = .ok r ↔ List.Forall₂ (fun a b => f a = .ok b) l r := by
  induction l generalizing r with
  | nil =>
    rw [List.mapM_nil, List.forall₂_nil_left_iff]
    exact ⟨fun h => (Except.ok.inj h).symm, fun h => h ▸ rfl⟩
  | cons a l ih =>
    rw [List.mapM_cons, List.forall₂_cons_left_iff]
    constructor
    · intro h
      obtain ⟨b, hb, h⟩ := except_bind_ok h
      obtain ⟨bs, hbs, h⟩ := except_bind_ok h
      exact ⟨b, bs, hb, ih.mp hbs, (Except.ok.inj h).symm⟩
    · rintro ⟨b, bs, hb, hbs, rfl⟩
      rw [hb, ih.mpr hbs]
      rfl

theorem exists_mapM {ε α β : Type} {f : α → Except ε β} {P : α → β → Prop} :
    ∀ {l : List α}, (∀ a ∈ l, ∃ b, f a = .ok b ∧ P a b) →
      ∃ r, l.mapM f = .ok r ∧ List.Forall₂ P l r
  | [], _ => ⟨[], rfl, .nil⟩
  | a :: l, h => by
    obtain ⟨ha, hl⟩ := List.forall_mem_cons.mp h
    obtain ⟨b, hb, hP⟩ := ha
    obtain ⟨r, hr, hall⟩ := exists_mapM hl
    exact ⟨b :: r, mapM_ok_iff.mpr (.cons hb (mapM_ok_iff.mp hr)), .cons hP hall⟩

/-- A program: from a state, a value and a new state, or an exit. -/
def Prog (ε σ α : Type) : Type := σ → Except ε (α × σ)

namespace Prog

variable {ε σ α β γ : Type}

instance : Monad (Prog ε σ) where
  pure a := fun s => .ok (a, s)
  bind x f := fun s => match x s with
    | .ok (a, t) => f a t
    | .error e => .error e

/-- The whole state. -/
def state : Prog ε σ σ := fun s => .ok (s, s)

/-- A value read off the state. -/
def reads (f : σ → α) : Prog ε σ α := fun s => .ok (f s, s)

/-- A change of the state. -/
def modify (f : σ → σ) : Prog ε σ Unit := fun s => .ok ((), f s)

/-- The end of the process. -/
def exit (e : ε) : Prog ε σ α := fun _ => .error e

/-- Ends the process unless the condition holds. -/
def check (p : Prop) [Decidable p] (e : ε) : Prog ε σ Unit :=
  if p then pure () else exit e

/-- The value of an option, ending the process where there is none. -/
def lift (e : ε) : Option α → Prog ε σ α
  | some a => pure a
  | none => exit e

/-- A computation without state. -/
def ofExcept : Except ε α → Prog ε σ α
  | .ok a => pure a
  | .error e => exit e

/-- `for (k = i; k < i + n; k++) b = body(k, b)`. -/
def forRange (body : Nat → β → Prog ε σ β) : Nat → Nat → β → Prog ε σ β
  | _, 0, b => pure b
  | i, n + 1, b => do forRange body (i + 1) n (← body i b)

@[simp] theorem pure_apply (a : α) (s : σ) : (pure a : Prog ε σ α) s = .ok (a, s) := rfl

theorem bind_apply (x : Prog ε σ α) (f : α → Prog ε σ β) (s : σ) :
    (x >>= f) s = match x s with
      | .ok (a, t) => f a t
      | .error e => .error e := rfl

theorem bind_ok {x : Prog ε σ α} {f : α → Prog ε σ β} {s u : σ} {b : β}
    (h : (x >>= f) s = .ok (b, u)) : ∃ a t, x s = .ok (a, t) ∧ f a t = .ok (b, u) := by
  rw [bind_apply] at h
  cases hx : x s with
  | error e => rw [hx] at h; cases h
  | ok p => rw [hx] at h; exact ⟨p.1, p.2, rfl, h⟩

theorem check_ok {p : Prop} [Decidable p] {e : ε} {s t : σ} {a : Unit}
    (h : check p e s = .ok (a, t)) : p ∧ s = t := by
  unfold check at h
  split at h
  · rename_i hp
    exact ⟨hp, congrArg Prod.snd (Except.ok.inj h)⟩
  · cases h

theorem bind_of_ok {x : Prog ε σ α} {s t : σ} {a : α} (h : x s = .ok (a, t))
    (f : α → Prog ε σ β) : (x >>= f) s = f a t := by rw [bind_apply, h]

theorem bind_of_error {x : Prog ε σ α} {s : σ} {e : ε} (h : x s = .error e)
    (f : α → Prog ε σ β) : (x >>= f) s = .error e := by rw [bind_apply, h]

instance : LawfulMonad (Prog ε σ) := LawfulMonad.mk' _
  (fun x => by
    funext s
    show (match x s with | .ok (a, t) => _ | .error e => _) = x s
    cases x s <;> rfl)
  (fun _ _ => rfl)
  (fun x f g => by
    funext s
    simp only [bind_apply]
    cases x s <;> rfl)

/-! ## Weakest preconditions -/

/-- From `s` the program returns with `Q` or ends the process with `E`. -/
def wp (x : Prog ε σ α) (s : σ) (Q : α → σ → Prop) (E : ε → Prop) : Prop :=
  match x s with
  | .ok (a, t) => Q a t
  | .error e => E e

variable {s : σ} {Q : α → σ → Prop} {E : ε → Prop}

@[simp] theorem wp_pure (a : α) : wp (pure a) s Q E ↔ Q a s := Iff.rfl

@[simp] theorem wp_state {Q : σ → σ → Prop} : wp state s Q E ↔ Q s s := Iff.rfl

@[simp] theorem wp_reads (f : σ → α) : wp (reads f) s Q E ↔ Q (f s) s := Iff.rfl

@[simp] theorem wp_modify (f : σ → σ) {Q : Unit → σ → Prop} :
    wp (modify f) s Q E ↔ Q () (f s) := Iff.rfl

@[simp] theorem wp_exit (e : ε) : wp (exit e) s Q E ↔ E e := Iff.rfl

@[simp] theorem wp_bind (x : Prog ε σ β) (f : β → Prog ε σ α) :
    wp (x >>= f) s Q E ↔ wp x s (fun b t => wp (f b) t Q E) E := by
  unfold wp
  rw [bind_apply]
  cases x s <;> rfl

@[simp] theorem wp_check (p : Prop) [Decidable p] (e : ε) {Q : Unit → σ → Prop} :
    wp (check p e) s Q E ↔ if p then Q () s else E e := by
  unfold check
  split <;> rfl

@[simp] theorem wp_lift_some (a : α) (e : ε) : wp (lift e (some a)) s Q E ↔ Q a s := Iff.rfl

@[simp] theorem wp_ofExcept_ok (a : α) : wp (ofExcept (.ok a)) s Q E ↔ Q a s := Iff.rfl

theorem wp_ite (p : Prop) [Decidable p] (x y : Prog ε σ α) :
    wp (if p then x else y) s Q E ↔ if p then wp x s Q E else wp y s Q E := by
  split <;> rfl

theorem wp_mono {x : Prog ε σ α} {Q' : α → σ → Prop} {E' : ε → Prop} (h : wp x s Q E)
    (hQ : ∀ a t, Q a t → Q' a t) (hE : ∀ e, E e → E' e) : wp x s Q' E' := by
  unfold wp at h ⊢
  cases hx : x s with
  | ok p => rw [hx] at h; exact hQ _ _ h
  | error e => rw [hx] at h; exact hE _ h

theorem wp_of_error {x : Prog ε σ α} {e : ε} (h : x s = .error e) (hE : E e) : wp x s Q E := by
  unfold wp
  rw [h]
  exact hE

theorem wp_congr {x y : Prog ε σ α} {t : σ} (h : x s = y t) : wp x s Q E ↔ wp y t Q E := by
  unfold wp
  rw [h]

theorem wp_of_ok {x : Prog ε σ α} {a : α} {t : σ} (h : x s = .ok (a, t)) (hQ : Q a t) :
    wp x s Q E := by
  unfold wp; rw [h]; exact hQ

theorem wp_ok {x : Prog ε σ α} {a : α} {t : σ} (h : wp x s Q E) (hx : x s = .ok (a, t)) :
    Q a t := by
  unfold wp at h; rw [hx] at h; exact h

theorem wp_error {x : Prog ε σ α} {e : ε} (h : wp x s Q E) (hx : x s = .error e) : E e := by
  unfold wp at h; rw [hx] at h; exact h

/-- The postcondition may speak of the run itself. -/
theorem wp_and_run {x : Prog ε σ α} (h : wp x s Q E) :
    wp x s (fun a t => x s = .ok (a, t) ∧ Q a t) E := by
  unfold wp at h ⊢
  cases hx : x s with
  | ok p => rw [hx] at h; exact ⟨rfl, h⟩
  | error e => rw [hx] at h; exact h

/-- A program that cannot exit returns. -/
theorem wp_returns {x : Prog ε σ α} (h : wp x s Q fun _ => False) :
    ∃ a t, x s = .ok (a, t) ∧ Q a t := by
  unfold wp at h
  cases hx : x s with
  | ok p => rw [hx] at h; exact ⟨p.1, p.2, rfl, h⟩
  | error e => rw [hx] at h; exact h.elim

/-- The rule of the counting loop: an invariant indexed by the counter. -/
theorem wp_forRange {body : Nat → β → Prog ε σ β} {I : Nat → β → σ → Prop} :
    ∀ {n i : Nat} {b : β} {s : σ},
      (∀ k b s, i ≤ k → k < i + n → I k b s → wp (body k b) s (I (k + 1)) E) →
      I i b s → wp (forRange body i n b) s (I (i + n)) E
  | 0, _, _, _, _, h => h
  | n + 1, i, b, s, step, h => by
    simp only [forRange, wp_bind]
    refine wp_mono (step i b s (Nat.le_refl i) (by omega) h) (fun b' t ht => ?_) (fun _ he => he)
    have hrest : i + (n + 1) = i + 1 + n := by omega
    rw [hrest]
    exact wp_forRange (fun k b s hk hlt => step k b s (by omega) (by omega)) ht

/-- Where a loop returns, one whose rounds return the same up to `f` does so too. -/
theorem forRange_ok {body : Nat → β → Prog ε σ β} {body' : Nat → γ → Prog ε σ γ} {f : β → γ}
    (h : ∀ i b s b' t, body i b s = .ok (b', t) → body' i (f b) s = .ok (f b', t)) :
    ∀ n i b s b' t, forRange body i n b s = .ok (b', t) →
      forRange body' i n (f b) s = .ok (f b', t)
  | 0, _, _, _, _, _, hrun => by
    obtain ⟨rfl, rfl⟩ := Prod.mk.inj (Except.ok.inj hrun)
    rfl
  | n + 1, i, b, s, b', t, hrun => by
    unfold forRange at hrun ⊢
    obtain ⟨c, u, hround, hrest⟩ := bind_ok hrun
    rw [bind_of_ok (h i b s c u hround)]
    exact forRange_ok h n (i + 1) c u b' t hrest

/-! ## Changes a program does not look at -/

/-- The program neither reads nor writes what `f` changes. -/
def Commutes (f : σ → σ) (x : Prog ε σ α) : Prop :=
  ∀ s, x (f s) = (x s).map fun r => (r.1, f r.2)

variable {f : σ → σ}

theorem Commutes.pure (a : α) : Commutes f (pure a : Prog ε σ α) := fun _ => rfl

theorem Commutes.exit (e : ε) : Commutes f (exit e : Prog ε σ α) := fun _ => rfl

theorem Commutes.reads {g : σ → α} (h : ∀ s, g (f s) = g s) :
    Commutes f (reads g : Prog ε σ α) := fun s => by
  show Except.ok (g (f s), f s) = _
  rw [h]
  rfl

theorem Commutes.modify {g : σ → σ} (h : ∀ s, g (f s) = f (g s)) :
    Commutes f (modify g : Prog ε σ Unit) := fun s => by
  show Except.ok ((), g (f s)) = _
  rw [h]
  rfl

theorem Commutes.check (p : Prop) [Decidable p] (e : ε) :
    Commutes f (check p e : Prog ε σ Unit) := by
  unfold Prog.check
  split
  · exact .pure ()
  · exact .exit e

theorem Commutes.bind {x : Prog ε σ β} {k : β → Prog ε σ α} (hx : Commutes f x)
    (hk : ∀ b, Commutes f (k b)) : Commutes f (x >>= k) := fun s => by
  rw [bind_apply, bind_apply, hx]
  cases x s with
  | error e => rfl
  | ok r => exact hk r.1 r.2

theorem Commutes.wp {x : Prog ε σ α} (hx : Commutes f x) (s : σ) (Q : α → σ → Prop)
    (E : ε → Prop) : wp x (f s) Q E ↔ wp x s (fun a t => Q a (f t)) E := by
  unfold Prog.wp
  rw [hx]
  cases x s <;> rfl

/-! ## Recursion by levels -/

/-- Where the first program does not run dry, the second does the same. -/
def Approximates (dry : ε) (x y : Prog ε σ α) : Prop := ∀ s, x s = .error dry ∨ x s = y s

namespace Approximates

variable {dry : ε} {x y : Prog ε σ α}

protected theorem refl : Approximates dry x x := fun _ => .inr rfl

protected theorem exit : Approximates dry (exit dry) x := fun _ => .inl rfl

theorem bind {f g : α → Prog ε σ β} (h : Approximates dry x y)
    (hf : ∀ a, Approximates dry (f a) (g a)) : Approximates dry (x >>= f) (y >>= g) := by
  intro s
  rw [bind_apply, bind_apply]
  rcases h s with hx | hx
  · exact .inl (by rw [hx])
  · rw [← hx]
    cases x s with
    | error e => exact .inr rfl
    | ok r => exact hf r.1 r.2

theorem ite {p : Prop} [Decidable p] {x' y' : Prog ε σ α} (h : Approximates dry x y)
    (h' : Approximates dry x' y') :
    Approximates dry (if p then x else x') (if p then y else y') := by
  by_cases hp : p
  · simpa only [if_pos hp] using h
  · simpa only [if_neg hp] using h'

theorem eq_of_ne {s : σ} (h : Approximates dry x y) (hs : x s ≠ .error dry) : y s = x s :=
  ((h s).resolve_left hs).symm

end Approximates

end Prog

end Dp4c.Lib

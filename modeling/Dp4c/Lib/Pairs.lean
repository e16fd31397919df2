import Dp4c.Lib.Prog

/-! # Two programs in step

A `Pairing` says when the states of two programs correspond and which exits of theirs go
together. `InStep` says of two programs that the second does what the first does, up to the
pairing: from states that correspond both return, in states that correspond, or both end the
process. The second may also go past the point where the first ended. What it does there is
its own affair, but that it was there is not forgotten. -/
namespace Dp4c.Lib.Prog

structure Pairing (ε δ σ τ : Type) where
  states : σ → τ → Prop
  exits : ε → δ → Prop
  /-- The states the second program can be in. -/
  second : τ → Prop
  second_of_states : ∀ {s t}, states s t → second t
  /-- The second program, which is in this state, has gone past the end of the first. -/
  passed : ε → τ → Prop
  /-- The state in which the second program ended. -/
  last : δ → τ

variable {ε δ σ τ α β γ : Type} {p : Pairing ε δ σ τ} {s : σ} {t : τ}

/-- The second program answers the first with an exit that goes with `e`, or it goes on. -/
def Pairing.Ends (p : Pairing ε δ σ τ) (e : ε) (y : Prog δ τ β) (t : τ) : Prop :=
  wp y t (fun _ v => p.passed e v) fun d => p.exits e d ∨ p.passed e (p.last d)

/-- What the second program does on its own. -/
def Pairing.Goes (p : Pairing ε δ σ τ) (W : β → Prop) (y : Prog δ τ β) : Prop :=
  ∀ t, p.second t → wp y t (fun b v => W b ∧ p.second v ∧ ∀ e, p.passed e t → p.passed e v)
    fun d => ∀ e, p.passed e t → p.passed e (p.last d)

/-- Both programs together; what they return is related by `V`, and of what the second
returns `W` holds in any case. -/
structure InStep (p : Pairing ε δ σ τ) (V : α → β → Prop) (W : β → Prop) (x : Prog ε σ α)
    (y : Prog δ τ β) : Prop where
  both : ∀ s t, p.states s t →
    wp x s (fun a u => wp y t (fun b v => V a b ∧ p.states u v) fun _ => False)
      fun e => p.Ends e y t
  goes : p.Goes W y

variable {V V' : α → β → Prop} {W W' : β → Prop} {x : Prog ε σ α} {y : Prog δ τ β}

/-- The second program goes on behind an end of the first. -/
theorem Pairing.Goes.ends {e : ε} (hy : p.Goes W y) (ht : p.second t) (h : p.passed e t) :
    p.Ends e y t :=
  wp_mono (hy t ht) (fun _ _ h' => h'.2.2 e h) fun _ h' => .inr (h' e h)

theorem Pairing.Goes.mono (hy : p.Goes W y) (hW : ∀ b, W b → W' b) : p.Goes W' y :=
  fun t ht => wp_mono (hy t ht) (fun _ _ h => ⟨hW _ h.1, h.2⟩) fun _ h => h

theorem Pairing.Goes.bind {W' : γ → Prop} {g : β → Prog δ τ γ} (hy : p.Goes W y)
    (hg : ∀ b, W b → p.Goes W' (g b)) : p.Goes W' (y >>= g) := by
  intro t ht
  refine (wp_bind ..).mpr (wp_mono (hy t ht) ?_ fun _ h => h)
  rintro b v ⟨hb, hv, hpassed⟩
  exact wp_mono (hg b hb v hv) (fun c w h => ⟨h.1, h.2.1, fun e he => h.2.2 e (hpassed e he)⟩)
    fun d h e he => h e (hpassed e he)

theorem Pairing.Ends.bind {W' : γ → Prop} {e : ε} {g : β → Prog δ τ γ} (ht : p.second t)
    (h : p.Ends e y t) (hy : p.Goes W y) (hg : ∀ b, W b → p.Goes W' (g b)) :
    p.Ends e (y >>= g) t := by
  unfold Ends at h ⊢
  rw [wp_bind]
  cases hrun : y t with
  | error d =>
    have hexit := wp_error h hrun
    exact wp_of_error hrun hexit
  | ok r =>
    obtain ⟨hb, hv, -⟩ := wp_ok (hy t ht) hrun
    have hpassed := wp_ok h hrun
    have hrest := (hg r.1 hb).ends hv hpassed
    exact wp_of_ok hrun hrest

namespace InStep

theorem mono (h : InStep p V W x y) (hV : ∀ a b, V a b → V' a b) (hW : ∀ b, W b → W' b) :
    InStep p V' W' x y where
  both s t hst := wp_mono (h.both s t hst)
    (fun _ _ h => wp_mono h (fun _ _ h => ⟨hV _ _ h.1, h.2⟩) fun _ h => h) fun _ h => h
  goes := h.goes.mono hW

theorem pure {a : α} {b : β} (hV : V a b) (hW : W b) : InStep p V W (pure a) (pure b) where
  both _ _ hst := ⟨hV, hst⟩
  goes _ ht := ⟨hW, ht, fun _ h => h⟩

theorem bind {α' β' : Type} {V' : α' → β' → Prop} {W' : β' → Prop} {x : Prog ε σ α'}
    {y : Prog δ τ β'} {f : α' → Prog ε σ α} {g : β' → Prog δ τ β} (h : InStep p V' W' x y)
    (hf : ∀ a b, V' a b → W' b → InStep p V W (f a) (g b)) (hg : ∀ b, W' b → p.Goes W (g b)) :
    InStep p V W (x >>= f) (y >>= g) := by
  refine ⟨fun s t hst => ?_, h.goes.bind hg⟩
  have ht := p.second_of_states hst
  refine (wp_bind ..).mpr (wp_mono (h.both s t hst) (fun a u ha => ?_) fun e he =>
    he.bind ht h.goes hg)
  -- the second program returned as well, so its rest is what answers
  cases hy : y t with
  | error d => exact (wp_error ha hy).elim
  | ok r =>
    obtain ⟨hV, hstates⟩ := wp_ok ha hy
    obtain ⟨hW, -⟩ := wp_ok (h.goes t ht) hy
    have hbind : (y >>= g) t = g r.1 r.2 := bind_of_ok hy g
    exact wp_mono ((hf a r.1 hV hW).both u r.2 hstates)
      (fun a' u' ha' => (wp_congr hbind).mpr ha') fun e he => (wp_congr hbind).mpr he

theorem reads {f : σ → α} {g : τ → β} (hV : ∀ s t, p.states s t → V (f s) (g t))
    (hW : ∀ t, p.second t → W (g t)) : InStep p V W (reads f) (reads g) where
  both s t hst := ⟨hV s t hst, hst⟩
  goes t ht := ⟨hW t ht, ht, fun _ h => h⟩

/-- Programs that look at the state and go on as others. -/
theorem choose (h : ∀ s t, p.states s t → ∃ x' y', x s = x' s ∧ y t = y' t ∧ InStep p V W x' y')
    (hgoes : ∀ t, p.second t → ∃ y', y t = y' t ∧ p.Goes W y') : InStep p V W x y := by
  refine ⟨fun s t hst => ?_, fun t ht => ?_⟩
  · obtain ⟨x', y', hx, hy, hstep⟩ := h s t hst
    refine (wp_congr hx).mpr (wp_mono (hstep.both s t hst) (fun _ _ h => (wp_congr hy).mpr h) ?_)
    exact fun _ h => (wp_congr hy).mpr h
  · obtain ⟨y', hy, hy'⟩ := hgoes t ht
    exact (wp_congr hy).mpr (hy' t ht)

/-- The first program ends at once. -/
theorem ended {e : σ → ε} (hx : ∀ s, x s = .error (e s))
    (hpassed : ∀ s t, p.states s t → p.passed (e s) t) (hy : p.Goes W y) : InStep p V W x y where
  both s t hst := wp_of_error (hx s) (hy.ends (p.second_of_states hst) (hpassed s t hst))
  goes := hy

end InStep

end Dp4c.Lib.Prog

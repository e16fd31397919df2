import Dp4c.Symtable.Runs

/-! # A flushed table and a fresh one

`symtable_flush` keeps the width the table has grown to, so the flushed table and the one
that `symtable_init` builds at the start differ in their slots and chains, and go on
differing. They stand for the same bindings, every call changes these in the same way, and
what a call shows depends on them alone; also the exit of a table that is full, since both
hold their last entry at the same time. -/
namespace Dp4c.Symtable

open Dp4c.Lib Dp4c.Lib.Prog

variable {s t u : State}

/-- What `get_symtable_entry` shows of a name. -/
structure Shown where
  idKw : List Symbol
  idType : List Symbol
  idIdent : List Symbol

def showEntry (name : Cstr) : SymM Shown := do
  let symbol ← deref (← getSymtableEntry name)
  pure ⟨symbol.idKw, symbol.idType, symbol.idIdent⟩

/-- The value or the exit of a program. -/
def outcome {α : Type} (x : SymM α) (s : State) : Except Exit α := (x s).map Prod.fst

/-- Two tables of the same bindings. -/
structure Agree (s t : State) : Prop where
  left : Inv s
  right : Inv t
  bindings : abs s = abs t

/-- From two tables a program returns to two that agree, or exits in the same way. -/
def Together {α β : Type} (x : Except Exit (α × State)) (y : Except Exit (β × State)) : Prop :=
  (∃ a b s t, x = .ok (a, s) ∧ y = .ok (b, t) ∧ Agree s t) ∨
    ∃ e, x = .error e ∧ y = .error e

/-! ## Full tables -/

/-- A table that is full takes no new name. -/
theorem getSymtableEntry_full (hi : Inv s) {name : Cstr} (hn : name.bytes ≠ [])
    (hnew : name ∉ s.storage.map (·.name)) (hfull : 2 ^ 10 ≤ s.storage.length + 1) :
    getSymtableEntry name s = .error .fault := by
  have hwp := wp_getSymtableEntry hi hn
  cases hrun : getSymtableEntry name s with
  | error e =>
    obtain ⟨rfl, -, -⟩ := wp_error hwp hrun
    rfl
  | ok r =>
    -- it would have more entries than the widest table has slots
    obtain ⟨hit, habs, -⟩ := wp_ok hwp hrun
    have hlt := hit.names_lt
    rw [habs, Scopes.names, Scopes.enter, if_neg (by rw [mem_names_abs]; exact hnew)] at hlt
    simp only [abs, List.length_map, List.length_append, List.length_singleton] at hlt
    omega

theorem Op.exec_full (hi : Inv s) {op : Op} (hn : op.Named) {e : Exit} (hfull : op.FullAt s e) :
    e = .fault ∧ op.exec s = .error .fault := by
  obtain ⟨name, hname, rfl, hnew, hlen⟩ := hfull
  have hentry := getSymtableEntry_full hi (hn name hname) hnew hlen
  refine ⟨rfl, ?_⟩
  cases op with
  | getSymtableEntry =>
    obtain rfl := Option.some.inj hname
    exact bind_of_error hentry _
  | nameIsDeclared =>
    obtain rfl := Option.some.inj hname
    exact bind_of_error (bind_of_error hentry _) _
  | newType =>
    obtain rfl := Option.some.inj hname
    exact bind_of_error (bind_of_error hentry _) _
  | newIdent =>
    obtain rfl := Option.some.inj hname
    exact bind_of_error (bind_of_error hentry _) _
  | addKeyword =>
    obtain rfl := Option.some.inj hname
    exact bind_of_error (bind_of_error hentry _) _
  | pushScope => cases hname
  | popScope => cases hname
  | symtableFlush => cases hname

/-- Whether a table is full for a name is read off its bindings. -/
theorem Full.congr {name : Cstr} {e : Exit} (h : Full s name e) (habs : abs s = abs t) :
    Full t name e := by
  obtain ⟨he, hnew, hlen⟩ := h
  refine ⟨he, by rwa [← mem_names_abs, ← habs, mem_names_abs], ?_⟩
  have hl := congrArg (fun t : Scopes => t.entries.length) habs
  simp only [abs, List.length_map] at hl
  omega

/-! ## Calls -/

/-- A call on two tables that agree. -/
theorem Agree.exec (h : Agree s t) {op : Op} (hn : op.Named) :
    Together (op.exec s) (op.exec t) := by
  have hs := wp_exec h.left hn
  have ht := wp_exec h.right hn
  cases hrun : op.exec s with
  | ok r =>
    obtain ⟨his, hok, -⟩ := wp_ok hs hrun
    cases hrun' : op.exec t with
    | ok r' =>
      obtain ⟨hit, hok', -⟩ := wp_ok ht hrun'
      rw [h.bindings, hok'] at hok
      exact .inl ⟨r.1, r'.1, r.2, r'.2, rfl, rfl, his, hit, (Except.ok.inj hok).symm⟩
    | error e =>
      rcases wp_error ht hrun' with herr | ⟨name, hname, hfull⟩
      · rw [← h.bindings, hok] at herr
        cases herr
      · have hexit := (Op.exec_full h.left hn ⟨name, hname, hfull.congr h.bindings.symm⟩).2
        rw [hrun] at hexit
        cases hexit
  | error e =>
    rcases wp_error hs hrun with herr | ⟨name, hname, hfull⟩
    · cases hrun' : op.exec t with
      | ok r' =>
        obtain ⟨-, hok', -⟩ := wp_ok ht hrun'
        rw [h.bindings, hok'] at herr
        cases herr
      | error e' =>
        rcases wp_error ht hrun' with herr' | ⟨name, hname, hfull⟩
        · rw [h.bindings, herr'] at herr
          exact .inr ⟨e, rfl, by rw [Except.error.inj herr]⟩
        · have hexit := (Op.exec_full h.left hn ⟨name, hname, hfull.congr h.bindings.symm⟩)
          rw [hrun] at hexit
          exact .inr ⟨e, rfl, by rw [Except.error.inj hexit.2, hexit.1]⟩
    · obtain ⟨rfl, -⟩ := Op.exec_full h.left hn ⟨name, hname, hfull⟩
      exact .inr ⟨_, rfl, (Op.exec_full h.right hn ⟨name, hname, hfull.congr h.bindings⟩).2⟩

/-- A run on two tables that agree. -/
theorem Agree.run : ∀ {ops : List Op} {s t : State}, Agree s t → (∀ op ∈ ops, op.Named) →
    Together (Symtable.run ops s) (Symtable.run ops t)
  | [], s, t, h, _ => .inl ⟨[], [], s, t, rfl, rfl, h⟩
  | op :: ops, s, t, h, hn => by
    unfold Symtable.run
    rcases h.exec (hn op List.mem_cons_self) with ⟨r, r', u, v, hu, hv, h'⟩ | ⟨e, hs, ht⟩
    · rw [bind_of_ok hu, bind_of_ok hv]
      rcases h'.run fun o ho => hn o (List.mem_cons_of_mem _ ho) with
        ⟨rs, rs', u', v', hu', hv', h''⟩ | ⟨e, hs, ht⟩
      · rw [bind_of_ok hu', bind_of_ok hv']
        exact .inl ⟨_, _, u', v', rfl, rfl, h''⟩
      · rw [bind_of_error hs, bind_of_error ht]
        exact .inr ⟨e, rfl, rfl⟩
    · rw [bind_of_error hs, bind_of_error ht]
      exact .inr ⟨e, rfl, rfl⟩

/-! ## What is shown -/

theorem wp_showEntry (hi : Inv s) {name : Cstr} (hn : name.bytes ≠ []) :
    wp (showEntry name) s (fun shown _ => shown = ⟨((abs s).lookup name).idKw,
      ((abs s).lookup name).idType, ((abs s).lookup name).idIdent⟩) (Full s name) := by
  unfold showEntry
  rw [wp_bind]
  refine wp_mono (wp_getSymtableEntry hi hn) ?_ fun _ h => h
  rintro p t ⟨hit, habs, e, he, hname⟩
  rw [wp_bind, wp_deref he, wp_pure, ← hit.lookup_entered he habs hname]
  rfl

/-- A value that is read off the bindings is the same on both tables. -/
theorem Agree.outcome {α : Type} {x : SymM α} {name : Cstr}
    (h : Agree s t) (value : Scopes → Except Exit α) (hn : name.bytes ≠ [])
    (hx : ∀ s, Inv s → wp x s (fun a _ => value (abs s) = .ok a)
      (fun e => Full s name e ∨ value (abs s) = .error e))
    (hfull : ∀ s, getSymtableEntry name s = .error .fault → x s = .error .fault) :
    outcome x s = outcome x t := by
  have hexit : ∀ s, Inv s → ∀ e, Full s name e → e = .fault ∧ x s = .error .fault :=
    fun s hi e ⟨he, hnew, hlen⟩ => ⟨he, hfull s (getSymtableEntry_full hi hn hnew hlen)⟩
  by_cases hf : Full s name .fault
  · unfold Symtable.outcome
    rw [(hexit s h.left _ hf).2, (hexit t h.right _ (hf.congr h.bindings)).2]
  · have hvalue : ∀ u, Inv u → abs u = abs s → Symtable.outcome x u = value (abs s) :=
      fun u hiu habs => by
        have hwp := hx u hiu
        unfold Symtable.outcome
        cases hrun : x u with
        | ok r => exact ((habs ▸ wp_ok hwp hrun).symm : Except.ok r.1 = _)
        | error e =>
          rcases wp_error hwp hrun with hfe | he
          · obtain ⟨rfl, -⟩ := hexit u hiu e hfe
            exact absurd (hfe.congr habs) hf
          · exact ((habs ▸ he).symm : Except.error e = _)
    rw [hvalue s h.left rfl, hvalue t h.right h.bindings.symm]

theorem Agree.showEntry (h : Agree s t) {name : Cstr} (hn : name.bytes ≠ []) :
    Symtable.outcome (showEntry name) s = Symtable.outcome (Symtable.showEntry name) t := by
  refine h.outcome (fun t => .ok ⟨(t.lookup name).idKw, (t.lookup name).idType,
    (t.lookup name).idIdent⟩) hn (fun s hi => wp_mono (wp_showEntry hi hn) ?_ fun _ => .inl)
    fun s hfull => bind_of_error hfull _
  rintro _ _ rfl
  rfl

theorem Agree.nameIsDeclared (h : Agree s t) {name : Cstr} (hn : name.bytes ≠ [])
    (kind : SymbolKind) :
    Symtable.outcome (nameIsDeclared name kind) s =
      Symtable.outcome (Symtable.nameIsDeclared name kind) t := by
  refine h.outcome (fun t => match kind.space with
    | some ns => .ok (t.declared ns name)
    | none => .error (.assertion "0")) hn (fun s hi => wp_mono (wp_nameIsDeclared hi hn kind) ?_ ?_)
    fun s hfull => bind_of_error hfull _
  · rintro r _ ⟨-, -, ns, hns, rfl⟩
    rw [hns]
  · rintro e (hfull | ⟨hns, rfl⟩)
    · exact .inl hfull
    · exact .inr (by rw [hns])

theorem Together.outcome {α β γ : Type} {x : SymM α} {y : SymM β} {f : α → SymM γ}
    {g : β → SymM γ} (h : Together (x s) (y t))
    (hf : ∀ a b s t, Agree s t → Symtable.outcome (f a) s = Symtable.outcome (g b) t) :
    Symtable.outcome (x >>= f) s = Symtable.outcome (y >>= g) t := by
  rcases h with ⟨a, b, u, v, hu, hv, h⟩ | ⟨e, hs, ht⟩
  · have hfg := hf a b u v h
    unfold Symtable.outcome at hfg ⊢
    rw [bind_of_ok hu, bind_of_ok hv]
    exact hfg
  · unfold Symtable.outcome
    rw [bind_of_error hs, bind_of_error ht]

/-- **`symtable_flush`** gives a table that no calls tell from the one of the start. -/
theorem flush_fresh {s₀ : State} (h₀ : symtableInit {} = .ok ((), s₀)) {ops : List Op}
    (hn : ∀ op ∈ ops, op.Named) {rs : List (Option Nat)} (hrun : run ops s₀ = .ok (rs, s)) :
    ∃ t, symtableFlush s = .ok ((), t) ∧ ∀ more : List Op, (∀ op ∈ more, op.Named) →
      ∀ name : Cstr, name.bytes ≠ [] →
        outcome (do let _ ← run more; showEntry name) t =
          outcome (do let _ ← run more; showEntry name) s₀ ∧
        ∀ kind, outcome (do let _ ← run more; nameIsDeclared name kind) t =
          outcome (do let _ ← run more; nameIsDeclared name kind) s₀ := by
  obtain ⟨hi₀, habs₀⟩ := symtableInit_ok ⟨rfl, rfl, rfl, by decide, by decide⟩ h₀
  obtain ⟨hi, -⟩ := run_abs hi₀ hn hrun
  obtain ⟨_, t, hflush, hit, habs⟩ := wp_returns (wp_symtableFlush hi)
  have hagree : Agree t s₀ := by
    refine ⟨hit, hi₀, ?_⟩
    rw [habs] at habs₀
    exact Except.ok.inj habs₀
  refine ⟨t, hflush, fun more hmore name hname => ⟨?_, fun kind => ?_⟩⟩
  · exact (hagree.run hmore).outcome fun _ _ _ _ h => h.showEntry hname
  · exact (hagree.run hmore).outcome fun _ _ _ _ h => h.nameIsDeclared hname kind

/-- A type is declared, and a scope left open. -/
def declaresPort : List Op := [.newType (Cstr.ofString "port") (some 1), .pushScope]

theorem declaresPort_returns : (((do symtableInit; run declaresPort) : SymM _) {}).toOption.map
    (·.2.scopeLevel) = some 1 := by decide +kernel

theorem flush_fresh_port : ∃ s₀ rs s t, symtableInit {} = .ok ((), s₀) ∧
    run declaresPort s₀ = .ok (rs, s) ∧ symtableFlush s = .ok ((), t) ∧
    outcome (showEntry (Cstr.ofString "port")) t = outcome
        (showEntry (Cstr.ofString "port")) s₀ := by
  obtain ⟨⟨rs, s⟩, hrun, -⟩ := ok_of_toOption declaresPort_returns
  obtain ⟨_, s₀, h₀, hrun⟩ := bind_ok hrun
  have hn : ∀ op ∈ declaresPort, op.Named := by unfold Op.Named; decide +kernel
  obtain ⟨t, hflush, hsame⟩ := flush_fresh h₀ hn hrun
  exact ⟨s₀, rs, s, t, h₀, hrun, hflush,
    (hsame [] (fun _ h => nomatch h) (Cstr.ofString "port") (by decide)).1⟩

end Dp4c.Symtable

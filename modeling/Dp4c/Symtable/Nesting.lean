import Dp4c.Symtable.Growth

/-! # Nested scopes

What a `pop_scope` leaves of what was visible before the matching
`push_scope`. `scope_delete_symbol` takes one symbol off a chain whose first
symbol belongs to the scope, and empties every other chain; so a scope is
undone exactly when each name it could see has one declaration in it. -/
namespace Dp4c.Symtable

open Dp4c.Lib Dp4c.Lib.Prog

variable {s t u : State}

/-- Well-nested sequences of calls. -/
inductive Balanced : List Op → Prop
  | nil : Balanced []
  | call {op : Op} {ops : List Op} (h : op.declares ∨ ∃ name kind, op = .nameIsDeclared name kind)
      (hk : ∀ name klass, op ≠ .addKeyword name klass) : Balanced ops → Balanced (op :: ops)
  | nest {inner ops : List Op} : Balanced inner → Balanced ops →
      Balanced (.pushScope :: (inner ++ .popScope :: ops))

/-- The states some run of calls leads to. -/
def Reachable (s : State) : Prop := ∃ ops s₀ rs, (∀ op ∈ ops, op.Named) ∧
  symtableInit {} = .ok ((), s₀) ∧ run ops s₀ = .ok (rs, s)

/-! ## The levels on a chain -/

namespace Scopes

/-- No chain starts above level `n`. -/
def HeadsLe (t : Scopes) (n : Nat) : Prop := ∀ name ns,
  ∀ symbol ∈ ((t.lookup name).chain ns).head?, symbol.scopeLevel ≤ n

theorem HeadsLe.mono {t : Scopes} {m n : Nat} (h : t.HeadsLe m) (hmn : m ≤ n) : t.HeadsLe n :=
  fun name ns x hx => Nat.le_trans (h name ns x hx) hmn

theorem headsLe_bind {t : Scopes} {n : Nat} (h : t.HeadsLe n) (ns : Space) (name : Cstr)
    {symbol : Symbol} (hs : symbol.scopeLevel ≤ n) : (t.bind ns name symbol).HeadsLe n := by
  intro name' ns' x hx
  rw [chain_bind] at hx
  split at hx
  · obtain rfl := Option.some.inj hx
    exact hs
  · exact h name' ns' x hx

theorem headsLe_enter {t : Scopes} {n : Nat} (h : t.HeadsLe n) (name : Cstr) :
    (t.enter name).HeadsLe n := by
  intro name' ns' x hx
  rw [lookup_enter] at hx
  exact h name' ns' x hx

theorem headsLe_addKeywords : ∀ {kws : List (String × TokenClass)} {t u : Scopes} {n : Nat},
    t.HeadsLe n → t.scopeLevel ≤ n → t.addKeywords kws = .ok u → u.HeadsLe n
  | [], t, u, n, h, _, hu => by obtain rfl := Except.ok.inj hu; exact h
  | (name, klass) :: kws, t, u, n, h, hl, hu => by
    unfold addKeywords at hu
    obtain ⟨v, hv, hu⟩ := except_bind_ok hu
    obtain ⟨symbol, hs, rfl⟩ := addKeyword_ok hv
    exact headsLe_addKeywords (headsLe_bind h .kw _ (by omega)) (by simpa using hl) hu

theorem init_headsLe {t : Scopes} (h : init = .ok t) : t.HeadsLe 0 := by
  refine headsLe_addKeywords (fun name ns x hx => ?_) (Nat.le_refl 0) h
  cases ns <;> cases hx

/-- What a pop does to the chain of a name. -/
theorem chain_popScope {t u : Scopes} (h : t.popScope = .ok u) (name : Cstr) (ns : Space) :
    scopeDeleteSymbol t.scopeLevel ((t.lookup name).chain ns) =
      .ok ((u.lookup name).chain ns) := by
  have hpop : ∀ {l l' : List Bindings}, popAll t.scopeLevel l = .ok l' →
      scopeDeleteSymbol t.scopeLevel ((lookupIn name l).chain ns) =
        .ok ((lookupIn name l').chain ns) := by
    intro l
    induction l with
    | nil => intro l' h; obtain rfl := Except.ok.inj h; cases ns <;> rfl
    | cons b l ih =>
      intro l' h
      obtain ⟨b', rest, hb, hl, rfl⟩ := popAll_cons_ok h
      obtain ⟨hn, hc⟩ := popBindings_ok hb
      unfold lookupIn
      rw [hn]
      split
      · exact hc ns
      · exact ih hl
  exact hpop (popScope_ok h).2.1

/-- A pop goes through when every chain can be popped. -/
theorem popScope_of_chains {t : Scopes} (hw : t.Wf) (hl : t.scopeLevel > 0)
    (h : ∀ name ns, ∃ l, scopeDeleteSymbol t.scopeLevel ((t.lookup name).chain ns) = .ok l) :
    ∃ u, t.popScope = .ok u := by
  have hall : ∀ {l : List Bindings}, (∀ b ∈ l, b ∈ t.entries) →
      ∃ l', popAll t.scopeLevel l = .ok l' := by
    intro l
    induction l with
    | nil => exact fun _ => ⟨[], rfl⟩
    | cons b l ih =>
      intro hb
      have hlook : t.lookup b.name = b := lookupIn_of_mem hw (hb b (List.mem_cons_self ..))
      obtain ⟨kw, hkw⟩ := h b.name .kw
      obtain ⟨type, htype⟩ := h b.name .type
      obtain ⟨ident, hident⟩ := h b.name .ident
      rw [hlook] at hkw htype hident
      obtain ⟨rest, hrest⟩ := ih fun c hc => hb c (List.mem_cons_of_mem _ hc)
      refine ⟨{ b with idKw := kw, idType := type, idIdent := ident } :: rest, ?_⟩
      have hpop : popBindings t.scopeLevel b =
          .ok { b with idKw := kw, idType := type, idIdent := ident } := by
        unfold popBindings
        rw [show scopeDeleteSymbol t.scopeLevel b.idKw = _ from hkw,
          show scopeDeleteSymbol t.scopeLevel b.idType = _ from htype,
          show scopeDeleteSymbol t.scopeLevel b.idIdent = _ from hident]
        rfl
      unfold popAll
      rw [hpop, hrest]
      rfl
  obtain ⟨l', hl'⟩ := hall fun b hb => hb
  exact ⟨{ entries := l', scopeLevel := t.scopeLevel - 1 }, by
    unfold popScope; rw [if_pos hl, hl']; rfl⟩

end Scopes

/-- The three ways a chain is popped. -/
theorem scopeDeleteSymbol_ok {level : Nat} {l l' : List Symbol} (hl : level > 0)
    (h : scopeDeleteSymbol level l = .ok l') :
    (l = [] ∧ l' = []) ∨ (∃ x rest, l = x :: rest ∧ x.scopeLevel < level ∧ l' = []) ∨
      ∃ x, l = x :: l' ∧ level ≤ x.scopeLevel ∧ ∀ y ∈ l'.head?, y.scopeLevel ≤ level := by
  cases l with
  | nil => exact .inl ⟨rfl, (Except.ok.inj h).symm⟩
  | cons x rest =>
    unfold scopeDeleteSymbol at h
    dsimp only at h
    by_cases hx : x.scopeLevel > level - 1
    · rw [if_pos hx] at h
      cases rest with
      | nil =>
        obtain rfl := Except.ok.inj h
        exact .inr (.inr ⟨x, rfl, by omega, fun y hy => by cases hy⟩)
      | cons y rest =>
        by_cases hy : y.scopeLevel ≤ level
        · simp only [if_pos hy] at h
          obtain rfl := Except.ok.inj h
          refine .inr (.inr ⟨x, rfl, by omega, fun z hz => ?_⟩)
          obtain rfl := Option.some.inj hz
          exact hy
        · simp only [if_neg hy] at h
          cases h
    · rw [if_neg hx] at h
      exact .inr (.inl ⟨x, rest, rfl, by omega, (Except.ok.inj h).symm⟩)

theorem scopeDeleteSymbol_cons {level : Nat} {x : Symbol} {l : List Symbol}
    (hx : level ≤ x.scopeLevel) (hl : level > 0) (h : ∀ y ∈ l.head?, y.scopeLevel ≤ level) :
    scopeDeleteSymbol level (x :: l) = .ok l := by
  unfold scopeDeleteSymbol
  dsimp only
  rw [if_pos (by omega)]
  cases l with
  | nil => rfl
  | cons y rest => exact if_pos (h y rfl)

/-- At scope level `n` no chain starts above level `n + 1`. -/
theorem Op.headsLe_apply {op : Op} {t u : Scopes} (h : t.HeadsLe (t.scopeLevel + 1))
    (hu : op.apply t = .ok u) : u.HeadsLe (u.scopeLevel + 1) := by
  cases op with
  | getSymtableEntry name =>
    obtain rfl := Except.ok.inj hu
    rw [Scopes.enter_scopeLevel]
    exact Scopes.headsLe_enter h name
  | nameIsDeclared name kind =>
    obtain rfl := Op.apply_nameIsDeclared hu
    rw [Scopes.enter_scopeLevel]
    exact Scopes.headsLe_enter h name
  | newType name ast =>
    obtain rfl := Except.ok.inj hu
    unfold Scopes.newType
    rw [Scopes.bind_scopeLevel]
    exact Scopes.headsLe_bind h _ _ (Nat.le_succ _)
  | newIdent name ast =>
    obtain rfl := Except.ok.inj hu
    unfold Scopes.newIdent
    rw [Scopes.bind_scopeLevel]
    exact Scopes.headsLe_bind h _ _ (Nat.le_succ _)
  | addKeyword name klass =>
    obtain ⟨symbol, hs, rfl⟩ := Scopes.addKeyword_ok hu
    rw [Scopes.bind_scopeLevel]
    exact Scopes.headsLe_bind h _ _ (by omega)
  | pushScope =>
    obtain rfl := Except.ok.inj hu
    exact fun name ns x hx => Nat.le_succ_of_le (h name ns x hx)
  | popScope =>
    have hpop : t.popScope = .ok u := hu
    obtain ⟨hl, _, hlu⟩ := Scopes.popScope_ok hpop
    intro name ns x hx
    rcases scopeDeleteSymbol_ok hl (Scopes.chain_popScope hpop name ns) with
      ⟨_, he⟩ | ⟨_, _, _, _, he⟩ | ⟨_, _, _, hhead⟩
    · rw [he] at hx; cases hx
    · rw [he] at hx; cases hx
    · have := hhead x hx
      omega
  | symtableFlush =>
    have hinit : Scopes.init = .ok u := hu
    exact (Scopes.init_headsLe hinit).mono (Nat.zero_le _)

theorem headsLe_applyAll : ∀ {ops : List Op} {t u : Scopes}, t.HeadsLe (t.scopeLevel + 1) →
    applyAll ops t = .ok u → u.HeadsLe (u.scopeLevel + 1)
  | [], t, u, h, hu => by obtain rfl := Except.ok.inj hu; exact h
  | op :: ops, t, u, h, hu => by
    unfold applyAll at hu
    cases hop : op.apply t with
    | error e => rw [hop] at hu; cases hu
    | ok v =>
      rw [hop] at hu
      exact headsLe_applyAll (Op.headsLe_apply h hop) hu

theorem Reachable.inv (hs : Reachable s) : Inv s ∧ (abs s).HeadsLe (s.scopeLevel + 1) := by
  obtain ⟨ops, s₀, rs, hn, hinit, hrun⟩ := hs
  obtain ⟨hi, habs⟩ := symtableInit_ok blank_initial hinit
  obtain ⟨hi', hall⟩ := run_abs hi hn hrun
  have hheads := (Scopes.init_headsLe habs).mono (Nat.zero_le ((abs s₀).scopeLevel + 1))
  exact ⟨hi', headsLe_applyAll hheads hall⟩

/-! ## A scope over what was there -/

/-- The chain `d` is what a scope of level `n` makes of the chain `c`: its own
symbols, in front of `c` or of nothing. -/
def Over (n : Nat) (c d : List Symbol) : Prop :=
  ∃ own : List Symbol, (∀ x ∈ own, n ≤ x.scopeLevel) ∧ (d = own ++ c ∨ d = own)

theorem Over.refl (n : Nat) (c : List Symbol) : Over n c c := ⟨[], by simp, .inl rfl⟩

theorem Over.cons {n : Nat} {c d : List Symbol} (h : Over n c d) {x : Symbol}
    (hx : n ≤ x.scopeLevel) : Over n c (x :: d) := by
  obtain ⟨own, hown, hd⟩ := h
  refine ⟨x :: own, fun y hy => ?_, hd.imp (fun h => by rw [h]; rfl) (fun h => by rw [h])⟩
  rcases List.mem_cons.mp hy with rfl | hy
  · exact hx
  · exact hown y hy

/-- Popping a scope further in leaves a chain over `c`: as `c` starts too low
for it, the pop takes one of the symbols in front, or clears the chain. -/
theorem Over.popped {n level : Nat} {c d d' : List Symbol} (h : Over n c d)
    (hc : ∀ x ∈ c.head?, x.scopeLevel ≤ n) (hlevel : n < level)
    (hd : scopeDeleteSymbol level d = .ok d') : Over n c d' := by
  obtain ⟨own, hown, hdo⟩ := h
  rcases scopeDeleteSymbol_ok (by omega) hd with ⟨_, rfl⟩ | ⟨_, _, _, _, rfl⟩ | ⟨x, rfl, hx, _⟩
  · exact ⟨[], by simp, .inr rfl⟩
  · exact ⟨[], by simp, .inr rfl⟩
  · cases own with
    | nil =>
      rcases hdo with rfl | hdo
      · have := hc x rfl
        omega
      · cases hdo
    | cons y own =>
      refine ⟨own, fun z hz => hown z (List.mem_cons_of_mem _ hz), hdo.imp ?_ ?_⟩
      · exact fun h => (List.cons.inj h).2
      · exact fun h => (List.cons.inj h).2

/-- Calls inside a scope of level `n` leave every chain over what it was. -/
theorem over_apply {op : Op} (hop : op.declares ∨ ∃ name kind, op = .nameIsDeclared name kind)
    (hk : ∀ name klass, op ≠ .addKeyword name klass) {t u : Scopes} (h : op.apply t = .ok u)
    {n : Nat} (hn : n ≤ t.scopeLevel) :
    u.scopeLevel = t.scopeLevel ∧ ∀ name ns c, Over n c ((t.lookup name).chain ns) →
      Over n c ((u.lookup name).chain ns) := by
  have hbind (ns : Space) (name : Cstr) (symbol : Symbol) (hs : n ≤ symbol.scopeLevel)
      (name' : Cstr) (ns' : Space) (c : List Symbol)
      (h : Over n c ((t.lookup name').chain ns')) :
      Over n c (((t.bind ns name symbol).lookup name').chain ns') := by
    rw [Scopes.chain_bind]
    split
    · exact h.cons hs
    · exact h
  cases op with
  | getSymtableEntry name =>
    obtain rfl := Except.ok.inj h
    exact ⟨t.enter_scopeLevel name, fun name' ns c h => by rwa [Scopes.lookup_enter]⟩
  | nameIsDeclared name kind =>
    obtain rfl := Op.apply_nameIsDeclared h
    exact ⟨t.enter_scopeLevel name, fun name' ns c h => by rwa [Scopes.lookup_enter]⟩
  | newType name ast =>
    obtain rfl := Except.ok.inj h
    exact ⟨t.bind_scopeLevel _ _ _, hbind .type name _ hn⟩
  | newIdent name ast =>
    obtain rfl := Except.ok.inj h
    exact ⟨t.bind_scopeLevel _ _ _, hbind .ident name _ hn⟩
  | addKeyword name klass => exact absurd rfl (hk name klass)
  | pushScope | popScope | symtableFlush =>
    rcases hop with hop | ⟨_, _, hop⟩ <;> cases hop

theorem applyAll_append : ∀ (ops₁ : List Op) {ops₂ : List Op} {t u : Scopes},
    applyAll (ops₁ ++ ops₂) t = .ok u → ∃ v, applyAll ops₁ t = .ok v ∧ applyAll ops₂ v = .ok u
  | [], _, t, _, h => ⟨t, rfl, h⟩
  | op :: ops₁, ops₂, t, u, h => by
    simp only [List.cons_append, applyAll] at h ⊢
    cases hop : op.apply t with
    | error e => rw [hop] at h; cases h
    | ok w =>
      rw [hop] at h
      exact applyAll_append ops₁ h

/-- **Well-nested calls** return to the scope level they started at, and leave
every chain over what it was. -/
theorem Balanced.over {ops : List Op} (hb : Balanced ops) {n : Nat} :
    ∀ {t u : Scopes}, n ≤ t.scopeLevel → applyAll ops t = .ok u →
      u.scopeLevel = t.scopeLevel ∧ ∀ name ns c, (∀ x ∈ c.head?, x.scopeLevel ≤ n) →
        Over n c ((t.lookup name).chain ns) → Over n c ((u.lookup name).chain ns) := by
  induction hb with
  | nil =>
    intro t u _ h
    obtain rfl := Except.ok.inj h
    exact ⟨rfl, fun _ _ _ _ h => h⟩
  | @call op ops hop hk _ ih =>
    intro t u hn h
    unfold applyAll at h
    cases hv : op.apply t with
    | error e => rw [hv] at h; cases h
    | ok v =>
      rw [hv] at h
      obtain ⟨hl, hover⟩ := over_apply hop hk hv hn
      obtain ⟨hl', hover'⟩ := ih (by omega) h
      exact ⟨hl'.trans hl, fun name ns c hc h => hover' name ns c hc (hover name ns c h)⟩
  | @nest inner ops _ _ ihi iho =>
    intro t u hn h
    obtain ⟨v, hv, h⟩ := applyAll_append inner (t := t.pushScope) h
    unfold applyAll at h
    cases hw : Op.popScope.apply v with
    | error e => rw [hw] at h; cases h
    | ok w =>
      rw [hw] at h
      have hpop : v.popScope = .ok w := hw
      obtain ⟨_, _, hlw⟩ := Scopes.popScope_ok hpop
      obtain ⟨hlv, hinner⟩ := ihi (t := t.pushScope) (Nat.le_succ_of_le hn) hv
      have hlv' : v.scopeLevel = t.scopeLevel + 1 := hlv
      obtain ⟨hlu, houter⟩ := iho (t := w) (by omega) h
      refine ⟨by omega, fun name ns c hc h => houter name ns c hc ?_⟩
      exact (hinner name ns c hc h).popped hc (by omega) (Scopes.chain_popScope hpop name ns)

/-- One chain: the pop restores it when the scope put one symbol on it, or it
was empty and is. -/
theorem scopeDeleteSymbol_restores_iff {n : Nat} {c d : List Symbol} (h : Over n c d) (hn : n > 0)
    (hc : ∀ x ∈ c.head?, x.scopeLevel ≤ n) :
    scopeDeleteSymbol n d = .ok c ↔ (c = [] ∧ d = []) ∨ ∃ x, d = x :: c := by
  obtain ⟨own, hown, hd⟩ := h
  constructor
  · intro hpop
    rcases scopeDeleteSymbol_ok hn hpop with ⟨rfl, rfl⟩ | ⟨x, rest, rfl, hx, rfl⟩ | ⟨x, rfl, _⟩
    · exact .inl ⟨rfl, rfl⟩
    · -- nothing was there, so the symbol below the level is the scope's own
      have hx' : x ∈ own := by
        rcases hd with hd | hd
        · rw [List.append_nil] at hd
          rw [← hd]; exact List.mem_cons_self ..
        · rw [← hd]; exact List.mem_cons_self ..
      have := hown x hx'
      omega
    · exact .inr ⟨x, rfl⟩
  · rintro (⟨rfl, rfl⟩ | ⟨x, rfl⟩)
    · rfl
    · have hx : x ∈ own := by
        rcases hd with hd | hd
        · cases own with
          | nil => exact absurd (congrArg List.length hd) (by simp)
          | cons y own =>
            rw [List.cons_append] at hd
            rw [(List.cons.inj hd).1]
            exact List.mem_cons_self ..
        · rw [← hd]; exact List.mem_cons_self ..
      exact scopeDeleteSymbol_cons (hown x hx) hn hc

/-- **`pop_scope` undoes its scope exactly when** every chain has, right before
it, one symbol more than at the matching `push_scope`, or was empty and is. -/
theorem popScope_restores_iff {d : State} {ops : List Op} {rs : List (Option Nat)}
    (hs : Reachable s) (hb : Balanced ops) (hn : ∀ op ∈ ops, op.Named)
    (hrun : run (.pushScope :: ops) s = .ok (rs, d)) :
    (∃ t, popScope d = .ok ((), t) ∧ ∀ ns name, visible t ns name = visible s ns name) ↔
      ∀ ns name, (visible s ns name = [] ∧ visible d ns name = []) ∨
        ∃ x, visible d ns name = x :: visible s ns name := by
  obtain ⟨hi, hheads⟩ := hs.inv
  have hn' : ∀ op ∈ Op.pushScope :: ops, op.Named := by
    intro op hop
    rcases List.mem_cons.mp hop with rfl | hop
    · intro name hname; cases hname
    · exact hn op hop
  obtain ⟨hid, hall⟩ := run_abs hi hn' hrun
  obtain ⟨hl, hover⟩ := hb.over (n := s.scopeLevel + 1) (t := (abs s).pushScope)
    (Nat.le_refl _) hall
  have hlevel : (abs d).scopeLevel = s.scopeLevel + 1 := hl
  have hover' : ∀ ns name, Over (s.scopeLevel + 1) (visible s ns name) (visible d ns name) :=
    fun ns name => hover name ns _ (hheads name ns) (Over.refl _ _)
  have hchain : ∀ ns name, scopeDeleteSymbol (s.scopeLevel + 1) (visible d ns name) =
      .ok (visible s ns name) ↔ _ := fun ns name =>
    scopeDeleteSymbol_restores_iff (hover' ns name) (Nat.succ_pos _) (hheads name ns)
  constructor
  · rintro ⟨t, ht, hsame⟩ ns name
    obtain ⟨_, hpop⟩ := wp_ok (wp_popScope hid) ht
    rw [← hchain, ← hsame, ← hlevel]
    exact Scopes.chain_popScope hpop name ns
  · intro hall
    obtain ⟨u, hu⟩ := Scopes.popScope_of_chains hid.wf (by omega) fun name ns => by
      rw [hlevel]
      exact ⟨_, (hchain ns name).mpr (hall ns name)⟩
    obtain ⟨_, t, ht, _, hpop⟩ := wp_returns (wp_mono (wp_popScope hid) (fun _ _ h => h)
      fun x hx => by rw [hu] at hx; cases hx)
    refine ⟨t, ht, fun ns name => ?_⟩
    have hpopped := Scopes.chain_popScope hpop name ns
    rw [hlevel] at hpopped
    exact Except.ok.inj (hpopped.symm.trans ((hchain ns name).mpr (hall ns name)))

/-! ## The first scope of a run -/

theorem scopeDeleteSymbol_of_outer {level : Nat} (hl : level > 0) {l : List Symbol}
    (h : ∀ x ∈ l.head?, x.scopeLevel < level) : scopeDeleteSymbol level l = .ok [] := by
  cases l with
  | nil => rfl
  | cons x rest =>
    have := h x rfl
    exact if_neg (by omega)

/-- An empty scope opened and closed on the initial table takes all the
keywords away. -/
theorem first_scope {s : State} (hs : symtableInit {} = .ok ((), s)) :
    ∃ d t, run [.pushScope] s = .ok ([none], d) ∧ popScope d = .ok ((), t) ∧
      run [.pushScope, .popScope] s = .ok ([none, none], t) ∧
      t.scopeLevel = 0 ∧ ∀ ns name, visible t ns name = [] := by
  obtain ⟨hi, hinit⟩ := symtableInit_ok blank_initial hs
  have hlevel : s.scopeLevel = 0 := by
    obtain ⟨u, hu, hl⟩ := Scopes.init_ok
    rw [hu] at hinit
    rw [Except.ok.inj hinit] at hl
    exact hl
  obtain ⟨_, d, hd, hid, habs⟩ := wp_returns (wp_pushScope hi (E := fun _ => False))
  have hlevel' : (abs d).scopeLevel = 1 := by
    rw [habs]
    show s.scopeLevel + 1 = 1
    rw [hlevel]
  have hempty : ∀ name ns, scopeDeleteSymbol (abs d).scopeLevel
      (((abs d).lookup name).chain ns) = .ok [] := fun name ns => by
    rw [habs]
    refine scopeDeleteSymbol_of_outer (Nat.succ_pos _) fun x hx => ?_
    exact Nat.lt_succ_of_le (Nat.le_trans (Scopes.init_headsLe hinit name ns x hx) (Nat.zero_le _))
  obtain ⟨u, hu⟩ := Scopes.popScope_of_chains hid.wf (by omega) fun name ns =>
    ⟨[], hempty name ns⟩
  obtain ⟨_, t, ht, _, hpop⟩ := wp_returns (wp_mono (wp_popScope hid) (fun _ _ h => h)
    fun x hx => by rw [hu] at hx; cases hx)
  have hpush : Op.pushScope.exec s = .ok (none, d) := by
    show ((fun _ => none) <$> pushScope : SymM (Option Nat)) s = _
    rw [map_eq_pure_bind, bind_of_ok hd]
    rfl
  have hpop' : Op.popScope.exec d = .ok (none, t) := by
    show ((fun _ => none) <$> popScope : SymM (Option Nat)) d = _
    rw [map_eq_pure_bind, bind_of_ok ht]
    rfl
  refine ⟨d, t, run_cons_of_ok hpush rfl, ht,
    run_cons_of_ok hpush (run_cons_of_ok hpop' rfl), ?_, fun ns name => ?_⟩
  · have h := (Scopes.popScope_ok hpop).2.2
    rw [hlevel'] at h
    exact h
  · have h := Scopes.chain_popScope hpop name ns
    rw [hempty] at h
    exact (Except.ok.inj h).symm

/-- The keyword `action` is gone after the first scope. -/
theorem popScope_loses_keyword : ∃ s d t rs, Reachable s ∧ run [.pushScope] s = .ok (rs, d) ∧
    popScope d = .ok ((), t) ∧
    visible t .kw (Cstr.ofString "action") ≠ visible s .kw (Cstr.ofString "action") := by
  obtain ⟨s, hs, _, hinit⟩ := symtableInit_returns blank_initial
  obtain ⟨d, t, hd, ht, _, _, hempty⟩ := first_scope hs
  have hkw : Scopes.init.toOption.any
      (fun t => decide ((t.lookup (Cstr.ofString "action")).idKw ≠ [])) = true := by
    decide +kernel
  rw [hinit] at hkw
  refine ⟨s, d, t, _, ⟨[], s, [], by simp, hs, rfl⟩, hd, ht, ?_⟩
  rw [hempty]
  exact Ne.symm (of_decide_eq_true hkw)

theorem applyAll_append_of_ok : ∀ {ops₁ : List Op} (ops₂ : List Op) {t v : Scopes},
    applyAll ops₁ t = .ok v → applyAll (ops₁ ++ ops₂) t = applyAll ops₂ v
  | [], _, t, v, h => by rw [Except.ok.inj h]; rfl
  | op :: ops₁, ops₂, t, v, h => by
    simp only [List.cons_append, applyAll] at h ⊢
    cases hop : op.apply t with
    | error e => rw [hop] at h; cases h
    | ok w =>
      rw [hop] at h
      exact applyAll_append_of_ok ops₂ h

/-- After the first scope, a scope with one declaration is undone. -/
theorem popScope_restores_one : ∃ s d t rs, Reachable s ∧
    run [.pushScope, .newType (Cstr.ofString "port_t") none] s = .ok (rs, d) ∧
    visible d .type (Cstr.ofString "port_t") ≠ [] ∧ popScope d = .ok ((), t) ∧
    ∀ ns name, visible t ns name = visible s ns name := by
  obtain ⟨s₀, hs₀, hi₀, hinit⟩ := symtableInit_returns blank_initial
  obtain ⟨_, s, _, _, hfirst, _, hempty⟩ := first_scope hs₀
  let name := Cstr.ofString "port_t"
  let ops : List Op := [.pushScope, .popScope, .pushScope, .newType name none]
  have hnamed : ∀ op ∈ ops, op.Named := by unfold Op.Named; decide +kernel
  have hkw : ∀ x ∈ keywordNames, x ∈ namesOf ops := fun x hx => mem_namesOf.mpr (.inl hx)
  have habs : applyAll [.pushScope, .popScope] (abs s₀) = .ok (abs s) :=
    (run_abs hi₀ (fun op h => hnamed op (List.mem_append_left [_, _] h)) hfirst).2
  have hall : applyAll ops (abs s₀) = .ok ((abs s).pushScope.newType name none) :=
    applyAll_append_of_ok [.pushScope, .newType name none] habs
  obtain ⟨rs, d, hrun, _⟩ := wp_returns (wp_mono (wp_run (D := namesOf ops) (by decide +kernel)
    hkw hi₀ hnamed (fun x hx => hkw x (names_init hinit hx))
    fun op hop x hx => mem_namesOf.mpr (.inr ⟨op, hop, hx⟩)) (fun _ _ h => h)
    fun x hx => by rw [hall] at hx; cases hx)
  obtain ⟨rs₁, u, rs₂, h₁, h₂⟩ := run_append [.pushScope, .popScope] hrun
  obtain rfl : u = s := (Prod.mk.inj (Except.ok.inj (h₁.symm.trans hfirst))).2
  have hreach : Reachable u := ⟨_, s₀, _, fun op h => hnamed op (List.mem_append_left [_, _] h),
    hs₀, hfirst⟩
  have hd : abs d = (abs u).pushScope.newType name none := by
    obtain ⟨_, hd⟩ := run_abs hreach.inv.1
      (fun op h => hnamed op (List.mem_append_right [_, _] h)) h₂
    exact (Except.ok.inj hd).symm
  have hchain : ∀ ns name', visible d ns name' = if name = name' ∧ Space.type = ns then
      _ :: visible u ns name' else visible u ns name' := fun ns name' => by
    unfold visible
    rw [hd]
    exact Scopes.chain_bind _ .type name _ ns name'
  have hbalanced : Balanced [.newType name none] :=
    .call (.inl rfl) (fun _ _ h => by cases h) .nil
  obtain ⟨t, ht, hsame⟩ := (popScope_restores_iff hreach hbalanced
    (fun op h => hnamed op (List.mem_append_right [_, _, _] h)) h₂).mpr fun ns name' => by
      rw [hchain]
      split
      · exact .inr ⟨_, rfl⟩
      · exact .inl ⟨hempty ns name', hempty ns name'⟩
  refine ⟨u, d, t, rs₂, hreach, h₂, ?_, ht, hsame⟩
  rw [hchain, if_pos ⟨rfl, rfl⟩]
  simp

end Dp4c.Symtable

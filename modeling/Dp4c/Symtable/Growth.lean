import Dp4c.Symtable.Runs

/-! # Entries across growth

A run of declarations from `symtable_init`, through the growths on its way:
entries stay where they are, keep their names and their chains, and are found
again by their names. The growth for the 1024th name writes behind its
temporary array, so this holds exactly of the runs that stay below. -/
namespace Dp4c.Symtable

open Dp4c.Lib Dp4c.Lib.Prog

variable {s t u : State}

/-- The calls that declare or look up names. -/
def Op.declares : Op → Bool
  | .getSymtableEntry _ | .newType _ _ | .newIdent _ _ | .addKeyword _ _ => true
  | .nameIsDeclared _ _ | .pushScope | .popScope | .symtableFlush => false

/-! ## Entries are kept -/

namespace Scopes

/-- Every entry of `t` is in `u`, at its place, with what it had on its chains
at their ends. -/
def Keeps (t u : Scopes) : Prop := ∀ (i : Nat) (b : Bindings), t.entries[i]? = some b →
  ∃ b' : Bindings, u.entries[i]? = some b' ∧ b'.name = b.name ∧
    ∀ ns, b.chain ns <:+ b'.chain ns

theorem Keeps.refl (t : Scopes) : Keeps t t := fun _ b hb =>
  ⟨b, hb, rfl, fun _ => List.suffix_refl _⟩

theorem Keeps.trans {t u v : Scopes} (h : Keeps t u) (h' : Keeps u v) : Keeps t v := by
  intro i b hb
  obtain ⟨b', hb', hn, hs⟩ := h i b hb
  obtain ⟨b'', hb'', hn', hs'⟩ := h' i b' hb'
  exact ⟨b'', hb'', hn'.trans hn, fun ns => (hs ns).trans (hs' ns)⟩

theorem keeps_enter (t : Scopes) (name : Cstr) : Keeps t (t.enter name) := by
  intro i b hb
  refine ⟨b, ?_, rfl, fun _ => List.suffix_refl _⟩
  unfold enter
  split
  · exact hb
  · rw [List.getElem?_append_left (List.getElem?_eq_some_iff.mp hb).1]
    exact hb

theorem keeps_bind (t : Scopes) (ns : Space) (name : Cstr) (symbol : Symbol) :
    Keeps t (t.bind ns name symbol) := by
  refine (t.keeps_enter name).trans fun i b hb => ?_
  refine ⟨if b.name = name then b.withChain ns (symbol :: b.chain ns) else b, ?_, ?_, ?_⟩
  · simp [bind, updateName, hb]
  · split
    · exact b.withChain_name ns _
    · rfl
  · intro ns'
    split
    · rw [Bindings.chain_withChain]
      split
      · rename_i h
        rw [← h]; exact List.suffix_cons _ _
      · exact List.suffix_refl _
    · exact List.suffix_refl _

end Scopes

theorem Op.keeps_apply {op : Op} (hd : op.declares) {t u : Scopes} (h : op.apply t = .ok u) :
    Scopes.Keeps t u := by
  cases op with
  | getSymtableEntry name => obtain rfl := Except.ok.inj h; exact t.keeps_enter name
  | newType name ast => obtain rfl := Except.ok.inj h; exact t.keeps_bind _ _ _
  | newIdent name ast => obtain rfl := Except.ok.inj h; exact t.keeps_bind _ _ _
  | addKeyword name klass =>
    obtain ⟨symbol, _, rfl⟩ := Scopes.addKeyword_ok h
    exact t.keeps_bind _ _ _
  | nameIsDeclared | pushScope | popScope | symtableFlush => cases hd

theorem keeps_applyAll : ∀ {ops : List Op} {t u : Scopes}, (∀ op ∈ ops, op.declares) →
    applyAll ops t = .ok u → Scopes.Keeps t u
  | [], t, u, _, h => by obtain rfl := Except.ok.inj h; exact Scopes.Keeps.refl t
  | op :: ops, t, u, hd, h => by
    unfold applyAll at h
    cases hop : op.apply t with
    | error e => rw [hop] at h; cases h
    | ok v =>
      rw [hop] at h
      exact (Op.keeps_apply (hd op (List.mem_cons_self ..)) hop).trans
        (keeps_applyAll (fun o ho => hd o (List.mem_cons_of_mem _ ho)) h)

/-- The same of two states of the table: an entry keeps its address, its name
and its symbols. -/
def Keeps (s t : State) : Prop := ∀ (p : Nat) (e : SymtableEntry), s.storage[p]? = some e →
  ∃ e' : SymtableEntry, t.storage[p]? = some e' ∧ e'.name = e.name ∧
    e.idKw <:+ e'.idKw ∧ e.idType <:+ e'.idType ∧ e.idIdent <:+ e'.idIdent

theorem keeps_of_abs (h : Scopes.Keeps (abs s) (abs t)) : Keeps s t := by
  intro p e hp
  obtain ⟨b', hb', hn, hs⟩ := h p e.bindings (by simp [abs, hp])
  simp only [abs, List.getElem?_map, Option.map_eq_some_iff] at hb'
  obtain ⟨e', he', rfl⟩ := hb'
  exact ⟨e', he', hn, hs .kw, hs .type, hs .ident⟩

/-! ## Entries are found -/

/-- A lookup made during a run returned the entry that has the name after it. -/
theorem run_returned : ∀ {ops : List Op} {s t : State} {rs : List (Option Nat)}, Inv s →
    (∀ op ∈ ops, op.declares) → (∀ op ∈ ops, op.Named) → run ops s = .ok (rs, t) →
    ∀ (i : Nat) (a : Cstr), ops[i]? = some (.getSymtableEntry a) →
      ∃ (p : Nat) (e : SymtableEntry), rs[i]? = some (some p) ∧ t.storage[p]? = some e ∧ e.name = a
  | [], _, _, _, _, _, _, _, i, a, h => by simp at h
  | op :: ops, s, t, rs, hi, hd, hn, hrun, i, a, h => by
    obtain ⟨r, u, rs', hop, hops, rfl⟩ := run_cons hrun
    have hd' : ∀ o ∈ ops, o.declares := fun o ho => hd o (List.mem_cons_of_mem _ ho)
    have hn' : ∀ o ∈ ops, o.Named := fun o ho => hn o (List.mem_cons_of_mem _ ho)
    obtain ⟨hiu, _, hret⟩ := wp_ok (wp_exec hi (hn op (List.mem_cons_self ..))) hop
    cases i with
    | zero =>
      obtain ⟨p, e, rfl, hp, hname⟩ := hret a (Option.some.inj h)
      obtain ⟨_, habs⟩ := run_abs hiu hn' hops
      obtain ⟨e', he', hn', _⟩ := keeps_of_abs (keeps_applyAll hd' habs) p e hp
      exact ⟨p, e', rfl, he', hn'.trans hname⟩
    | succ i => simpa using run_returned hiu hd' hn' hops i a (by simpa using h)

/-! ## Where entries are -/

/-- The table of a state: the array holds the slots, one chain hangs off each,
an entry is on the chain of its hash only, and every entry is counted. -/
def Placed (t : State) : Prop := ∃ slots chain, Table t slots chain ∧
  (∀ e ∈ t.storage, hashString e.name t.capacityLog2 < t.capacity) ∧
  ((List.range t.capacity).map fun h => (chain h).length).sum = t.entryCount

theorem Inv.placed (hi : Inv t) : Placed t := by
  obtain ⟨slots, chain, ht⟩ := hi
  refine ⟨slots, chain, ht, fun e _ => by rw [← ht.length]; exact ht.hash_lt e.name, ?_⟩
  have hlen := ht.flatMap_perm.length_eq
  rw [List.length_flatMap, List.length_range] at hlen
  rw [ht.count, ← ht.length]
  exact hlen

/-! ## Where a run may stop -/

theorem applyAll_error : ∀ {ops : List Op} {t : Scopes} {e : Exit}, (∀ op ∈ ops, op.declares) →
    applyAll ops t = .error e → e = .assertion "symbol->id_kw == 0" ∧
      ∃ ops₁ name klass ops₂ u, ops = ops₁ ++ .addKeyword name klass :: ops₂ ∧
        applyAll ops₁ t = .ok u ∧ (u.lookup name).idKw ≠ []
  | [], _, _, _, h => by cases h
  | op :: ops, t, e, hd, h => by
    unfold applyAll at h
    cases hop : op.apply t with
    | ok v =>
      rw [hop] at h
      obtain ⟨he, ops₁, name, klass, ops₂, u, hops, hu, hk⟩ :=
        applyAll_error (fun o ho => hd o (List.mem_cons_of_mem _ ho)) h
      refine ⟨he, op :: ops₁, name, klass, ops₂, u, by rw [hops]; rfl, ?_, hk⟩
      unfold applyAll
      rw [hop]
      exact hu
    | error x =>
      rw [hop] at h
      obtain rfl := Except.error.inj h
      have hdecl := hd op (List.mem_cons_self ..)
      cases op with
      | addKeyword name klass =>
        have hadd : t.addKeyword name klass = .error x := hop
        unfold Scopes.addKeyword at hadd
        split at hadd
        · cases hadd
        · rename_i hk
          exact ⟨(Except.error.inj hadd).symm, [], name, klass, ops, t, rfl, rfl, hk⟩
      | getSymtableEntry | newType | newIdent => cases hop
      | nameIsDeclared | pushScope | popScope | symtableFlush => cases hdecl

/-- The chain of a name, as its entry has it; a name without an entry has
none. -/
def visible (s : State) (ns : Space) (name : Cstr) : List Symbol :=
  ((abs s).lookup name).chain ns

/-- The list of all the names a run is about. -/
def namesOf (ops : List Op) : List Cstr := (keywordNames ++ ops.filterMap Op.name?).dedup

theorem mem_namesOf {ops : List Op} {x : Cstr} :
    x ∈ namesOf ops ↔ x ∈ keywordNames ∨ ∃ op ∈ ops, x ∈ op.name? := by
  simp [namesOf]

/-! ## The names that get entries -/

/-- The keyword a call adds. -/
def Op.keyword? : Op → Option Cstr
  | .addKeyword name _ => some name
  | .getSymtableEntry _ | .nameIsDeclared _ _ | .newType _ _ | .newIdent _ _
  | .pushScope | .popScope | .symtableFlush => none

/-- The calls before the first that adds a keyword to a name that has one; `kws` are the
names that have one at the start. -/
def madeCalls (kws : List Cstr) : List Op → List Op
  | [] => []
  | op :: ops => match op.keyword? with
    | some name => if name ∈ kws then [] else op :: madeCalls (name :: kws) ops
    | none => op :: madeCalls kws ops

namespace Scopes

/-- The names with a keyword are these. -/
def Keywords (t : Scopes) (kws : List Cstr) : Prop := ∀ x, (t.lookup x).idKw ≠ [] ↔ x ∈ kws

variable {t u : Scopes} {kws : List Cstr}

theorem Keywords.enter (h : t.Keywords kws) (name : Cstr) : (t.enter name).Keywords kws :=
  fun x => by rw [lookup_enter]; exact h x

theorem Keywords.bind_kw (h : t.Keywords kws) (name : Cstr) (symbol : Symbol) :
    (t.bind .kw name symbol).Keywords (name :: kws) := fun x => by
  have hchain := t.chain_bind .kw name symbol .kw x
  change ((t.bind .kw name symbol).lookup x).idKw = _ at hchain
  rw [hchain, List.mem_cons]
  split
  · rename_i he
    exact iff_of_true (List.cons_ne_nil _ _) (.inl he.1.symm)
  · rename_i hne
    rw [or_iff_right fun he => hne ⟨he.symm, rfl⟩]
    exact h x

theorem Keywords.bind_of_ne (h : t.Keywords kws) {ns : Space} (hns : ns ≠ .kw) (name : Cstr)
    (symbol : Symbol) : (t.bind ns name symbol).Keywords kws := fun x => by
  have hchain := t.chain_bind ns name symbol .kw x
  rw [if_neg fun he => hns he.2] at hchain
  change ((t.bind ns name symbol).lookup x).idKw = _ at hchain
  rw [hchain]
  exact h x

theorem Keywords.addKeywords : ∀ {l : List (String × TokenClass)} {t u : Scopes}
    {kws : List Cstr}, t.Keywords kws → t.addKeywords l = .ok u →
    u.Keywords (l.map (fun kw => Cstr.ofString kw.1) ++ kws)
  | [], t, u, kws, h, hu => by obtain rfl := Except.ok.inj hu; exact h
  | (name, klass) :: l, t, u, kws, h, hu => by
    unfold Scopes.addKeywords at hu
    obtain ⟨v, hv, hrest⟩ := except_bind_ok hu
    obtain ⟨symbol, -, rfl⟩ := addKeyword_ok hv
    intro x
    rw [(h.bind_kw _ symbol).addKeywords hrest x]
    simp [or_left_comm]

theorem keywords_init (h : init = .ok t) : t.Keywords keywordNames := by
  have hempty : Scopes.Keywords {} [] := fun x => iff_of_false (fun hx => hx rfl) (by simp)
  have hall := hempty.addKeywords h
  rwa [List.append_nil] at hall

end Scopes

/-- A call that is made leads on to the calls behind it. -/
theorem madeCalls_cons {op : Op} (hd : op.declares) {t u : Scopes} {kws : List Cstr}
    (hk : t.Keywords kws) (h : op.apply t = .ok u) :
    ∃ kws', u.Keywords kws' ∧ ∀ ops, madeCalls kws (op :: ops) = op :: madeCalls kws' ops := by
  cases op with
  | getSymtableEntry name =>
    obtain rfl := Except.ok.inj h
    exact ⟨kws, hk.enter name, fun _ => rfl⟩
  | newType name ast =>
    obtain rfl := Except.ok.inj h
    exact ⟨kws, hk.bind_of_ne (by decide) _ _, fun _ => rfl⟩
  | newIdent name ast =>
    obtain rfl := Except.ok.inj h
    exact ⟨kws, hk.bind_of_ne (by decide) _ _, fun _ => rfl⟩
  | addKeyword name klass =>
    obtain ⟨symbol, -, hu⟩ := Scopes.addKeyword_ok h
    have hfree : name ∉ kws := fun hin => by
      have herr : t.addKeyword name klass = .error _ := if_neg ((hk name).mpr hin)
      cases herr.symm.trans h
    exact ⟨name :: kws, hu ▸ hk.bind_kw name symbol, fun _ => if_neg hfree⟩
  | nameIsDeclared | pushScope | popScope | symtableFlush => cases hd

theorem madeCalls_append : ∀ {ops₁ : List Op} {t u : Scopes} {kws : List Cstr},
    (∀ op ∈ ops₁, op.declares) → t.Keywords kws → applyAll ops₁ t = .ok u →
    ∃ kws', u.Keywords kws' ∧
      ∀ ops₂, madeCalls kws (ops₁ ++ ops₂) = ops₁ ++ madeCalls kws' ops₂
  | [], t, u, kws, _, hk, h => by
    obtain rfl := Except.ok.inj h
    exact ⟨kws, hk, fun _ => rfl⟩
  | op :: ops₁, t, u, kws, hd, hk, h => by
    unfold applyAll at h
    cases hop : op.apply t with
    | error e => rw [hop] at h; cases h
    | ok v =>
      rw [hop] at h
      obtain ⟨kws', hk', hcons⟩ := madeCalls_cons (hd op List.mem_cons_self) hk hop
      obtain ⟨kws'', hk'', happend⟩ :=
        madeCalls_append (fun o ho => hd o (List.mem_cons_of_mem _ ho)) hk' h
      refine ⟨kws'', hk'', fun ops₂ => ?_⟩
      rw [List.cons_append, hcons, happend, List.cons_append]

/-- Where no keyword is added twice, all calls are made. -/
theorem madeCalls_all {ops : List Op} {t u : Scopes} {kws : List Cstr}
    (hd : ∀ op ∈ ops, op.declares) (hk : t.Keywords kws) (h : applyAll ops t = .ok u) :
    madeCalls kws ops = ops := by
  obtain ⟨kws', -, happend⟩ := madeCalls_append hd hk h
  have hall := happend []
  rwa [List.append_nil, madeCalls, List.append_nil] at hall

theorem madeCalls_refused {ops₁ ops₂ : List Op} {name : Cstr} {klass : TokenClass}
    {t u : Scopes} {kws : List Cstr} (hd : ∀ op ∈ ops₁, op.declares) (hk : t.Keywords kws)
    (h : applyAll ops₁ t = .ok u) (hname : (u.lookup name).idKw ≠ []) :
    madeCalls kws (ops₁ ++ .addKeyword name klass :: ops₂) = ops₁ := by
  obtain ⟨kws', hk', happend⟩ := madeCalls_append hd hk h
  have hrest : madeCalls kws' (.addKeyword name klass :: ops₂) = [] :=
    if_pos ((hk' name).mp hname)
  rw [happend, hrest, List.append_nil]

theorem Scopes.Keeps.names {t u : Scopes} (h : Scopes.Keeps t u) {x : Cstr} (hx : x ∈ t.names) :
    x ∈ u.names := by
  obtain ⟨b, hb, rfl⟩ := List.mem_map.mp hx
  obtain ⟨i, hi⟩ := List.mem_iff_getElem?.mp hb
  obtain ⟨b', hb', hname, -⟩ := h i b hi
  exact List.mem_map.mpr ⟨b', List.mem_of_getElem? hb', hname⟩

/-- The name of a call has an entry afterwards. -/
theorem Op.entered {op : Op} (hd : op.declares) {t u : Scopes} (h : op.apply t = .ok u) {x : Cstr}
    (hx : x ∈ op.name?) : x ∈ u.names := by
  have hbind {ns : Space} {name : Cstr} {symbol : Symbol} :
      name ∈ (t.bind ns name symbol).names := by
    rw [Scopes.names_bind]
    exact t.mem_enter name
  cases op with
  | getSymtableEntry name =>
    obtain rfl := Except.ok.inj h
    exact Option.some.inj hx ▸ t.mem_enter name
  | newType name ast =>
    obtain rfl := Except.ok.inj h
    exact Option.some.inj hx ▸ hbind
  | newIdent name ast =>
    obtain rfl := Except.ok.inj h
    exact Option.some.inj hx ▸ hbind
  | addKeyword name klass =>
    obtain ⟨symbol, -, rfl⟩ := Scopes.addKeyword_ok h
    exact Option.some.inj hx ▸ hbind
  | nameIsDeclared | pushScope | popScope | symtableFlush => cases hd

theorem entered : ∀ {ops : List Op} {t u : Scopes}, (∀ op ∈ ops, op.declares) →
    applyAll ops t = .ok u → ∀ op ∈ ops, ∀ x ∈ op.name?, x ∈ u.names
  | op :: ops, t, u, hd, h, o, ho, x, hx => by
    unfold applyAll at h
    have hd' : ∀ o ∈ ops, o.declares := fun o ho => hd o (List.mem_cons_of_mem _ ho)
    cases hop : op.apply t with
    | error e => rw [hop] at h; cases h
    | ok v =>
      rw [hop] at h
      rcases List.mem_cons.mp ho with rfl | ho
      · exact (keeps_applyAll hd' h).names (Op.entered (hd o List.mem_cons_self) hop hx)
      · exact entered hd' h o ho x hx

/-- A run that goes through is about fewer than 1024 names. -/
theorem namesOf_lt (hi : Inv s) (hinit : Scopes.init = .ok (abs s)) {ops : List Op}
    (hd : ∀ op ∈ ops, op.declares) (hn : ∀ op ∈ ops, op.Named) {rs : List (Option Nat)}
    (hrun : run ops s = .ok (rs, t)) : (namesOf ops).length < 2 ^ 10 := by
  obtain ⟨hit, habs⟩ := run_abs hi hn hrun
  have hsub : namesOf ops ⊆ (abs t).names := fun x hx => by
    rcases mem_namesOf.mp hx with hx | ⟨op, hop, hx⟩
    · have hkw : ((abs s).lookup x).chain .kw ≠ [] := (Scopes.keywords_init hinit x).mpr hx
      exact (keeps_applyAll hd habs).names (Scopes.mem_names_of_chain hkw)
    · exact entered hd habs op hop x hx
  have hle := (List.subperm_of_subset (List.nodup_dedup _) hsub).length_le
  exact Nat.lt_of_le_of_lt hle hit.names_lt

/-! ## Runs -/

/-- The lookups of a run got the entries of their names, two of them the same entry exactly
when they asked for the same name. -/
structure Found (ops : List Op) (rs : List (Option Nat)) (t : State) : Prop where
  entry : ∀ (i : Nat) (a : Cstr), ops[i]? = some (.getSymtableEntry a) →
    ∃ (p : Nat) (e : SymtableEntry), rs[i]? = some (some p) ∧ t.storage[p]? = some e ∧ e.name = a
  same : ∀ (i j : Nat) (a b : Cstr) (p q : Nat), ops[i]? = some (.getSymtableEntry a) →
    ops[j]? = some (.getSymtableEntry b) → rs[i]? = some (some p) → rs[j]? = some (some q) →
    (p = q ↔ a = b)

/-- The run goes through, unless a keyword is added twice. In the end every entry is placed
and the lookups have found theirs, and from any point of the run on no entry lost a symbol. -/
def PlacedRun (s₀ : State) (ops : List Op) : Prop :=
  ∃ s, symtableInit s₀ = .ok ((), s) ∧ wp (run ops) s
    (fun rs t => Placed t ∧ Found ops rs t ∧ ∀ ops₁ ops₂, ops = ops₁ ++ ops₂ →
      ∃ rs₁ u, run ops₁ s = .ok (rs₁, u) ∧ Placed u ∧ Keeps u t)
    (fun e => e = .assertion "symbol->id_kw == 0" ∧
      ∃ ops₁ name klass ops₂ rs₁ u, ops = ops₁ ++ .addKeyword name klass :: ops₂ ∧
        run ops₁ s = .ok (rs₁, u) ∧ visible u .kw name ≠ [])

theorem run_found (hi : Inv s) {ops : List Op} (hd : ∀ op ∈ ops, op.declares)
    (hn : ∀ op ∈ ops, op.Named) {rs : List (Option Nat)} (hrun : run ops s = .ok (rs, t)) :
    Found ops rs t := by
  obtain ⟨hit, _⟩ := run_abs hi hn hrun
  have hret := run_returned hi hd hn hrun
  refine ⟨hret, fun i j a b p q ha hb hp hq => ?_⟩
  obtain ⟨p', e, hp', he, rfl⟩ := hret i a ha
  obtain ⟨q', e', hq', he', rfl⟩ := hret j b hb
  obtain rfl : p = p' := by simpa [hp] using hp'
  obtain rfl : q = q' := by simpa [hq] using hq'
  obtain ⟨slots, chain, ht⟩ := hit
  refine ⟨fun h => ?_, fun h => ht.name_inj he he' h⟩
  subst h
  rw [he] at he'
  rw [Option.some.inj he']

theorem run_kept (hi : Inv s) {ops₁ ops₂ : List Op} (hd : ∀ op ∈ ops₁ ++ ops₂, op.declares)
    (hn : ∀ op ∈ ops₁ ++ ops₂, op.Named) {rs : List (Option Nat)}
    (hrun : run (ops₁ ++ ops₂) s = .ok (rs, t)) :
    ∃ rs₁ u, run ops₁ s = .ok (rs₁, u) ∧ Placed u ∧ Keeps u t := by
  obtain ⟨rs₁, u, rs₂, h₁, h₂⟩ := run_append _ hrun
  obtain ⟨hiu, _⟩ := run_abs hi (fun op h => hn op (List.mem_append_left _ h)) h₁
  obtain ⟨_, habs⟩ := run_abs hiu (fun op h => hn op (List.mem_append_right _ h)) h₂
  exact ⟨rs₁, u, h₁, hiu.placed,
    keeps_of_abs (keeps_applyAll (fun op h => hd op (List.mem_append_right _ h)) habs)⟩

/-- A run over few names, if the bindings take it. -/
theorem run_returns (hi : Inv s) (hinit : Scopes.init = .ok (abs s)) {ops : List Op}
    (hn : ∀ op ∈ ops, op.Named) (hfew : (namesOf ops).length < 2 ^ 10) {t : Scopes}
    (h : applyAll ops (abs s) = .ok t) :
    ∃ rs u, run ops s = .ok (rs, u) ∧ Inv u ∧ abs u = t := by
  have hk : ∀ x ∈ keywordNames, x ∈ namesOf ops := fun x hx => mem_namesOf.mpr (.inl hx)
  have hrun := wp_run hfew hk hi hn (fun x hx => hk x (names_init hinit hx))
    fun op hop x hx => mem_namesOf.mpr (.inr ⟨op, hop, hx⟩)
  obtain ⟨rs, u, hu, hiu, habs⟩ := wp_returns (wp_mono hrun (fun _ _ h => h)
    fun e he => by rw [h] at he; cases he)
  rw [h] at habs
  exact ⟨rs, u, hu, hiu, (Except.ok.inj habs).symm⟩

/-- A second keyword for a name is refused. -/
theorem addKeyword_refused (hi : Inv s) {name : Cstr} {klass : TokenClass}
    (hn : (Op.addKeyword name klass).Named) (hk : visible s .kw name ≠ []) :
    (Op.addKeyword name klass).exec s = .error (.assertion "symbol->id_kw == 0") := by
  have herr : (Op.addKeyword name klass).apply (abs s) = .error _ := if_neg hk
  have hexec := wp_exec hi hn
  cases hrun : (Op.addKeyword name klass).exec s with
  | ok r =>
    have hok := (wp_ok hexec hrun).2.1
    rw [herr] at hok
    cases hok
  | error e =>
    rcases wp_error hexec hrun with happly | ⟨x, hx, -, hnew, -⟩
    · rw [herr] at happly
      rw [Except.error.inj happly]
    · obtain rfl := Option.some.inj hx
      exact absurd (mem_names_abs.mp (Scopes.mem_names_of_chain hk)) hnew

/-- **The table over any run of declarations** is what it is to be exactly where the calls
that are made are about fewer than 1024 names, the keywords among them. -/
theorem run_placed_iff {s₀ : State} (h₀ : Blank s₀) {ops : List Op} (hd : ∀ op ∈ ops, op.declares)
    (hn : ∀ op ∈ ops, op.Named) :
    PlacedRun s₀ ops ↔ (namesOf (madeCalls keywordNames ops)).length < 2 ^ 10 := by
  obtain ⟨s, hs, hi, hinit⟩ := symtableInit_returns h₀
  have hk := Scopes.keywords_init hinit
  constructor
  · rintro ⟨s', hs', hrun⟩
    obtain rfl : s = s' := (Prod.mk.inj (Except.ok.inj (hs.symm.trans hs'))).2
    cases hr : run ops s with
    | ok r =>
      rw [madeCalls_all hd hk (run_abs hi hn hr).2]
      exact namesOf_lt hi hinit hd hn hr
    | error e =>
      obtain ⟨-, ops₁, name, klass, ops₂, rs₁, u, rfl, hu, hname⟩ := wp_error hrun hr
      have hd₁ : ∀ op ∈ ops₁, op.declares := fun op h => hd op (List.mem_append_left _ h)
      have hn₁ : ∀ op ∈ ops₁, op.Named := fun op h => hn op (List.mem_append_left _ h)
      rw [madeCalls_refused hd₁ hk (run_abs hi hn₁ hu).2 hname]
      exact namesOf_lt hi hinit hd₁ hn₁ hu
  · intro hfew
    refine ⟨s, hs, ?_⟩
    cases happly : applyAll ops (abs s) with
    | ok t =>
      rw [madeCalls_all hd hk happly] at hfew
      obtain ⟨rs, u, hu, hiu, -⟩ := run_returns hi hinit hn hfew happly
      refine wp_of_ok hu ⟨hiu.placed, run_found hi hd hn hu, fun ops₁ ops₂ hsplit => ?_⟩
      subst hsplit
      exact run_kept hi hd hn hu
    | error e =>
      obtain ⟨-, ops₁, name, klass, ops₂, t, rfl, ht, hname⟩ := applyAll_error hd happly
      have hd₁ : ∀ op ∈ ops₁, op.declares := fun op h => hd op (List.mem_append_left _ h)
      have hn₁ : ∀ op ∈ ops₁, op.Named := fun op h => hn op (List.mem_append_left _ h)
      rw [madeCalls_refused hd₁ hk ht hname] at hfew
      -- the calls before the refused one go through
      obtain ⟨rs₁, u, hu, hiu, rfl⟩ := run_returns hi hinit hn₁ hfew ht
      have hexec := addKeyword_refused hiu
        (hn (.addKeyword name klass) (List.mem_append_right _ List.mem_cons_self)) hname
      have hrest : run (.addKeyword name klass :: ops₂) u = .error _ := bind_of_error hexec _
      unfold wp
      rw [run_append_of_error hu hrest]
      exact ⟨rfl, ops₁, name, klass, ops₂, rs₁, u, rfl, hu, hname⟩

theorem blank_initial : Blank {} := ⟨rfl, rfl, rfl, by decide, by decide⟩

/-- The names `a00`, `a01` and so on. -/
def numbered (i : Nat) : Cstr :=
  ⟨[UInt8.ofNat (97 + i / 100 % 26), UInt8.ofNat (48 + i / 10 % 10), UInt8.ofNat (48 + i % 10)],
    by simp [← UInt8.toNat_inj]; omega⟩

/-- One lookup for each of `n` names. -/
def manyNames (n : Nat) : List Op := (List.range n).map fun i => .getSymtableEntry (numbered i)

theorem numbered_inj {i j : Nat} (hi : i < 1000) (hj : j < 1000) (h : numbered i = numbered j) :
    i = j := by
  have hbytes := congrArg Cstr.bytes h
  simp only [numbered, List.cons.injEq, ← UInt8.toNat_inj, UInt8.toNat_ofNat', and_true] at hbytes
  omega

/-- No keyword has a digit. -/
theorem numbered_notMem (i : Nat) : numbered i ∉ keywordNames := fun h => by
  have hletters : ∀ x ∈ keywordNames, ∀ b ∈ x.bytes, 58 ≤ b.toNat := by decide +kernel
  have hdigit := hletters _ h (UInt8.ofNat (48 + i % 10)) (by simp [numbered])
  rw [UInt8.toNat_ofNat'] at hdigit
  omega

theorem length_namesOf_manyNames {n : Nat} (h : n ≤ 1000) :
    (namesOf (manyNames n)).length = 40 + n := by
  have hnames : (manyNames n).filterMap Op.name? = (List.range n).map numbered := by
    rw [manyNames, List.filterMap_map]
    exact congrFun List.filterMap_eq_map _
  have hnd : (keywordNames ++ (List.range n).map numbered).Nodup := by
    refine List.nodup_append.mpr ⟨keywords_nodup, ?_, ?_⟩
    · refine List.Nodup.map_on (fun i hi j hj hij => numbered_inj ?_ ?_ hij) List.nodup_range
      · exact Nat.lt_of_lt_of_le (List.mem_range.mp hi) h
      · exact Nat.lt_of_lt_of_le (List.mem_range.mp hj) h
    · rintro x hx y hy rfl
      obtain ⟨i, -, rfl⟩ := List.mem_map.mp hy
      exact numbered_notMem i hx
  rw [namesOf, hnames, hnd.dedup, List.length_append, List.length_map, List.length_range]
  rfl

theorem manyNames_refused {n : Nat} (h : 984 ≤ n) (h' : n ≤ 1000) :
    ¬ PlacedRun {} (manyNames n) := by
  rintro ⟨s, hs, hrun⟩
  obtain ⟨hi, hinit⟩ := symtableInit_ok blank_initial hs
  have hd : ∀ op ∈ manyNames n, op.declares := fun op hop => by
    obtain ⟨i, -, rfl⟩ := List.mem_map.mp hop
    rfl
  have hn : ∀ op ∈ manyNames n, op.Named := fun op hop name hname => by
    obtain ⟨i, -, rfl⟩ := List.mem_map.mp hop
    obtain rfl := Option.some.inj hname
    exact List.cons_ne_nil _ _
  cases hr : run (manyNames n) s with
  | ok r =>
    have hlt := namesOf_lt hi hinit hd hn hr
    rw [length_namesOf_manyNames h'] at hlt
    omega
  | error e =>
    obtain ⟨-, ops₁, name, klass, ops₂, -, -, hsplit, -⟩ := wp_error hrun hr
    have hmem : Op.addKeyword name klass ∈ manyNames n := by rw [hsplit]; simp
    obtain ⟨i, -, hi⟩ := List.mem_map.mp hmem
    cases hi

/-- The 984th name after the 40 keywords makes the growth that fails. -/
theorem run_placed_fails : ¬ PlacedRun {} (manyNames 984) :=
  manyNames_refused (Nat.le_refl 984) (by decide)

/-- The calls of `run_placed_lookups`. -/
def lookups : List Op :=
  [.getSymtableEntry (Cstr.ofString "port"), .newType (Cstr.ofString "port") (some 1),
   .getSymtableEntry (Cstr.ofString "port"), .getSymtableEntry (Cstr.ofString "table")]

/-- Two lookups of one name and one of another. -/
theorem run_placed_lookups : ∃ s, symtableInit {} = .ok ((), s) ∧
    wp (run lookups) s (fun rs t => Placed t ∧ ∃ p q, p ≠ q ∧ rs[0]? = some (some p) ∧
      rs[2]? = some (some p) ∧ rs[3]? = some (some q)) (fun _ => False) := by
  have hdeclares : ∀ op ∈ lookups, op.declares := by decide +kernel
  obtain ⟨s, hs, hrun⟩ := (run_placed_iff blank_initial hdeclares
    (by unfold Op.Named; decide +kernel)).mpr (by decide +kernel)
  refine ⟨s, hs, wp_mono hrun ?_ ?_⟩
  · rintro rs t ⟨hplaced, hfound, _⟩
    obtain ⟨p, _, hp, _⟩ := hfound.entry 0 _ rfl
    obtain ⟨p', _, hp', _⟩ := hfound.entry 2 _ rfl
    obtain ⟨q, _, hq, _⟩ := hfound.entry 3 _ rfl
    obtain rfl := (hfound.same 0 2 _ _ p p' rfl rfl hp hp').mpr rfl
    refine ⟨hplaced, p, q, fun h => ?_, hp, hp', hq⟩
    exact absurd ((hfound.same 0 3 _ _ p q rfl rfl hp hq).mp h) (by decide +kernel)
  · rintro e ⟨_, ops₁, name, klass, ops₂, _, _, hsplit, _⟩
    have hmem : Op.addKeyword name klass ∈ lookups := by rw [hsplit]; simp
    simp [lookups] at hmem

end Dp4c.Symtable

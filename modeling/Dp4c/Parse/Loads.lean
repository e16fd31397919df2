import Dp4c.AstNodes
import Dp4c.Parse.Program
import Mathlib.Data.Multiset.Range

/-! # Where the nodes go

Each node the parser makes has an id of its own and hangs in one place: `Keeps p L x Q` says
that `x` takes over trees with the load `L` and gives them back in its result, together with
the nodes it made, whatever other trees there are. A flaw comes in only where `error` is
taken for a name, and the trace notes that. -/
namespace Dp4c.Parse

open Dp4c.Lib Dp4c.Lib.Prog

/-- How many names the parser took `error` for and kept. It drops the type arguments of an
assignment, which it read between the lvalue and the `=`; `dropped` is whether the last step
belongs to these. -/
def namesKept : Bool → List Step → Nat
  | _, [] => 0
  | dropped, step :: trace =>
    match step.call with
    | .errorName => (if dropped then 0 else 1) + namesKept dropped trace
    | .assignment => namesKept true trace
    | .lvalue => namesKept false trace
    | _ => namesKept dropped trace

def State.kept (s : State) : Nat := namesKept false s.trace

/-- All the trees of a state have this load: their nodes were made before, none of them
hangs in two places, and their flaws are the names noted in the trace. -/
structure Counts (s : State) (l : Load) : Prop where
  ids : l.1 ≤ Multiset.range s.nodeId
  flaws : l.2 = s.kept

/-- What a function of the parser returns, as a load. -/
class Loaded (α : Type) where
  load : α → Load

export Loaded (load)

instance : Loaded Ast := ⟨fun a => loadOf a.nodes⟩

instance : Loaded AstList := ⟨fun l => loadOf (linksNodes l.links)⟩

instance : Loaded (Option AstList) := ⟨fun l => (l.map load).getD 0⟩

/-- The steps of functions that are no statements. -/
def plainCalls : Call → Bool
  | .nextToken | .peekToken | .errorName => true
  | _ => false

/-- These steps are among the calls. -/
class Plain (p : Call → Bool) : Prop where
  calls : ∀ call, plainCalls call = true → p call = true

instance : Plain plainCalls := ⟨fun _ h => h⟩

def allCalls : Call → Bool := fun _ => true

instance : Plain allCalls := ⟨fun _ _ => rfl⟩

/-- The trace goes on, with such calls only. -/
def Grows (p : Call → Bool) (s t : State) : Prop :=
  ∃ steps, t.trace = steps ++ s.trace ∧ ∀ step ∈ steps, p step.call = true

variable {α β : Type} {s t u : State} {c : TokenClass → Bool} {p : Call → Bool} {L K : Load}

theorem Grows.of_eq (h : t.trace = s.trace) : Grows p s t := ⟨[], h, List.forall_mem_nil _⟩

theorem Grows.refl (s : State) : Grows p s s := .of_eq rfl

theorem Grows.cons {step : Step} (hp : p step.call = true) (h : t.trace = step :: s.trace) :
    Grows p s t := ⟨[step], h, List.forall_mem_singleton.mpr hp⟩

theorem Grows.trans (h : Grows p s t) (h' : Grows p t u) : Grows p s u := by
  obtain ⟨steps, hst, hp⟩ := h
  obtain ⟨steps', htu, hp'⟩ := h'
  exact ⟨steps' ++ steps, by rw [htu, hst, List.append_assoc], List.forall_mem_append.mpr ⟨hp', hp⟩⟩

/-- Among type arguments that are dropped no name is kept. -/
theorem Grows.dropped (h : Grows plainCalls s t) :
    namesKept true t.trace = namesKept true s.trace := by
  obtain ⟨steps, h, hp⟩ := h
  rw [h]
  clear h
  induction steps with
  | nil => rfl
  | cons step steps ih =>
    obtain ⟨hstep, hsteps⟩ := List.forall_mem_cons.mp hp
    rw [List.cons_append, namesKept, ih hsteps]
    cases hcall : step.call <;> rw [hcall] at hstep <;>
      first | rfl | exact Nat.zero_add _ | cases hstep

/-! ## Steps that make no node -/

theorem reclassify_frame (s : State) :
    (reclassify s).trace = s.trace ∧ (reclassify s).nodeId = s.nodeId := by
  unfold reclassify
  split <;> exact ⟨rfl, rfl⟩

/-- The program makes no node and takes no `error` for a name. -/
def Quiet (p : Call → Bool) (x : Parser β) : Prop := ∀ s,
  wp x s (fun _ t => Grows p s t ∧ t.nodeId = s.nodeId ∧
    t.kept = s.kept) fun e => Grows p s e.state

namespace Quiet

variable {x y : Parser β} {f : β → Parser α}

theorem pure (b : β) : Quiet p (pure b : Parser β) := fun _ => ⟨Grows.refl _, rfl, rfl⟩

theorem stop (e : Exit) : Quiet p (stop e : Parser β) := fun _ => Grows.refl _

theorem error (what : String) : Quiet p (error what : Parser β) := fun _ => Grows.refl _

theorem reads (g : State → β) : Quiet p (Prog.reads g) := fun _ => ⟨Grows.refl _, rfl, rfl⟩

theorem modify {g : State → State} (htrace : ∀ s, (g s).trace = s.trace)
    (hid : ∀ s, (g s).nodeId = s.nodeId) : Quiet p (Prog.modify g) := fun s =>
  ⟨.of_eq (htrace s), hid s, congrArg (namesKept false) (htrace s)⟩

theorem bind (hx : Quiet p x) (hf : ∀ b, Quiet p (f b)) : Quiet p (x >>= f) := fun s => by
  rw [wp_bind]
  refine wp_mono (hx s) (fun b t ⟨htrace, hid, hnames⟩ => ?_) fun _ he => he
  refine wp_mono (hf b t) (fun a u ⟨htrace', hid', hnames'⟩ => ?_) fun e he => htrace.trans he
  exact ⟨htrace.trans htrace', hid'.trans hid, hnames'.trans hnames⟩

theorem ifToken (hx : Quiet p x) (hy : Quiet p y) : Quiet p (ifToken c x y) := fun s => by
  cases hc : c s.token.klass with
  | true => exact (wp_congr (ifToken_pos hc)).mpr (hx s)
  | false => exact (wp_congr (ifToken_neg hc)).mpr (hy s)

theorem registerType (isType : Bool) (name : Cstr) (ast : Ast) :
    Quiet p (registerType isType name ast) := by
  cases isType
  · exact .pure ()
  · exact .modify (fun _ => rfl) fun _ => rfl

theorem require (what : String) : Quiet p (require c what) := .ifToken (.pure ()) (.error what)

theorem note {call : Call} (hp : p call = true)
    (h : call ≠ .errorName ∧ call ≠ .assignment) : Quiet p (note call) := fun s => by
  refine ⟨.cons hp rfl, rfl, ?_⟩
  show namesKept false (_ :: s.trace) = _
  rw [namesKept]
  cases call <;> first | rfl | exact absurd rfl h.1 | exact absurd rfl h.2

theorem skipComments : ∀ fuel i, Quiet p (skipComments fuel i)
  | 0, _ => .stop _
  | fuel + 1, i => by
    have hget : Quiet p (arrayGet i) := fun s => by
      unfold wp arrayGet
      split
      · rename_i h
        split at h
        · obtain ⟨rfl, rfl⟩ := Prod.mk.inj (Except.ok.inj h)
          exact ⟨Grows.refl _, rfl, rfl⟩
        · cases h
      · rename_i h
        split at h
        · cases h
        · obtain rfl := Except.error.inj h
          exact Grows.refl _
    refine .bind hget fun token => ?_
    split
    · exact skipComments fuel (i + 1)
    · exact .pure i

variable [hplain : Plain p]

theorem nextToken : Quiet p nextToken := by
  refine .bind (.note (hplain.calls _ rfl) (by decide)) fun _ => fun s => ?_
  rw [wp_bind, wp_state]
  split
  · refine Quiet.bind (.skipComments _ _) (fun i => .modify ?_ ?_) s
    · exact fun s => (reclassify_frame _).1
    · exact fun s => (reclassify_frame _).2
  · exact Grows.refl _

theorem expect (klass : TokenClass) (what : String) : Quiet p (expect klass what) :=
  .ifToken .nextToken (.error what)

end Quiet

/-! ## Taking over and giving back -/

/-- From trees with the load `L` the program builds its result, for which `Q` holds. -/
def Keeps (p : Call → Bool) [Loaded α] (L : Load) (x : Parser α) (Q : α → Prop) : Prop := ∀ s,
  wp x s (fun a t => Grows p s t ∧ Q a ∧ ∀ F, Counts s (L + F) → Counts t (load a + F))
    fun e => Grows p s e.state

/-- Nothing is said of the result. -/
def Any (_ : α) : Prop := True

/-- A node with a kind and the attributes of these names. -/
inductive Named (names : List AttrName) : Ast → Prop
  | mk {kind : AstKind} {id lineNr : Nat} {attrs : List (Attribute Ast)} : kind ≠ .none →
    attrs.map (·.name) = names → Named names (.node kind id lineNr attrs)

/-- What the attribute of this name adds to the load, if it is there, is nothing. -/
def Bare (attr : AttrName) (a : Ast) : Prop := ∀ e ∈ a.attrs, e.name = attr → e.load = 0

namespace Keeps

variable [Loaded α] {x y : Parser α} {f : β → Parser α} {Q Q' : α → Prop} {R : β → Prop}

theorem imp (h : Keeps p L x Q) (hQ : ∀ a, Q a → Q' a) : Keeps p L x Q' := fun s =>
  wp_mono (h s) (fun a _ ⟨htrace, ha, hcounts⟩ => ⟨htrace, hQ a ha, hcounts⟩) fun _ he => he

theorem any (h : Keeps p L x Q) : Keeps p L x Any := h.imp fun _ _ => trivial

theorem of_eq (h : Keeps p L x Q) (hL : L = K) : Keeps p K x Q := hL ▸ h

theorem pure {a : α} (ha : Q a) : Keeps p (load a + 0) (pure a) Q := fun _ =>
  ⟨Grows.refl _, ha, fun _ h => by rwa [add_zero] at h⟩

theorem null : Keeps p 0 (Pure.pure Ast.null) Any := .pure (a := Ast.null) trivial

theorem stop (e : Exit) : Keeps p L (stop e) Q := fun _ => Grows.refl _

theorem error (what : String) : Keeps p L (error what) Q := fun _ => Grows.refl _

theorem unexpected : Keeps p L unexpected Q := fun _ => Grows.refl _

/-- A function that takes over a part of the trees. -/
theorem bind [Loaded β] {x : Parser β} (hx : Keeps p (L + 0) x R)
    (hf : ∀ b, R b → Keeps p (load b + K) (f b) Q) : Keeps p (L + K) (x >>= f) Q := fun s => by
  rw [add_zero] at hx
  rw [wp_bind]
  refine wp_mono (hx s) (fun b t ⟨htrace, hb, hcounts⟩ => ?_) fun _ he => he
  refine wp_mono (hf b hb t) (fun a u ⟨htrace', ha, hcounts'⟩ => ?_) fun e he => htrace.trans he
  refine ⟨htrace.trans htrace', ha, fun F hs => hcounts' F ?_⟩
  rw [add_assoc]
  exact hcounts (K + F) (by rwa [add_assoc] at hs)

/-- A function that takes nothing over. -/
theorem bindNew [Loaded β] {x : Parser β} (hx : Keeps p 0 x R)
    (hf : ∀ b, R b → Keeps p (load b + K) (f b) Q) : Keeps p K (x >>= f) Q :=
  (bind (hx.of_eq (zero_add 0).symm) hf).of_eq (zero_add K)

theorem quiet {x : Parser β} (hx : Quiet p x) (hf : ∀ b, Keeps p K (f b) Q) :
    Keeps p K (x >>= f) Q := fun s => by
  rw [wp_bind]
  refine wp_mono (hx s) (fun b t ⟨htrace, hid, hnames⟩ => ?_) fun _ he => he
  refine wp_mono (hf b t) (fun a u ⟨htrace', ha, hcounts⟩ => ?_) fun e he => htrace.trans he
  refine ⟨htrace.trans htrace', ha, fun F hs => hcounts F ⟨?_, ?_⟩⟩
  · rw [hid]
    exact hs.ids
  · rw [hnames]
    exact hs.flaws

theorem next [Plain p] {f : Unit → Parser α} (hf : Keeps p K (f ()) Q) :
    Keeps p K (nextToken >>= f) Q :=
  .quiet .nextToken fun _ => hf

theorem expect [Plain p] {klass : TokenClass} {what : String} {f : Unit → Parser α}
    (hf : Keeps p K (f ()) Q) : Keeps p K (expect klass what >>= f) Q :=
  .quiet (.expect klass what) fun _ => hf

theorem require {what : String} {f : Unit → Parser α} (hf : Keeps p K (f ()) Q) :
    Keeps p K (require c what >>= f) Q := .quiet (.require what) fun _ => hf

theorem reads {g : State → β} (hf : ∀ b, Keeps p K (f b) Q) : Keeps p K (Prog.reads g >>= f) Q :=
  .quiet (.reads g) hf

theorem requireOr {a : Ast} {what : String} {f : Unit → Parser α} (hf : Keeps p K (f ()) Q) :
    Keeps p K (requireOr a c what >>= f) Q := by
  cases a with
  | null => exact .require hf
  | node => exact hf

theorem ifToken (hx : Keeps p L x Q) (hy : Keeps p L y Q) :
    Keeps p L (ifToken c x y) Q := fun s => by
  cases hc : c s.token.klass with
  | true => exact (wp_congr (ifToken_pos hc)).mpr (hx s)
  | false => exact (wp_congr (ifToken_neg hc)).mpr (hy s)

theorem ifPeek [Plain p] (hx : Keeps p L x Q) (hy : Keeps p L y Q) :
    Keeps p L (ifPeek c x y) Q := by
  have hpeek : Quiet p peekToken := by
    refine .bind (.note (Plain.calls _ rfl) (by decide)) fun _ => .bind .nextToken fun _ =>
      .bind (.reads _) fun token => ?_
    exact .bind (.modify (fun _ => rfl) fun _ => rfl) fun _ => .pure token
  refine .quiet hpeek fun token => ?_
  split
  · exact hx
  · exact hy

/-! ## Nodes -/

theorem new {kind : AstKind} (hkind : kind ≠ .none) : Keeps p 0 (newAstNode kind) (Named []) := by
  refine fun s => ⟨Grows.refl _, .mk hkind rfl, fun F hs => ?_⟩
  have hload : load (Ast.node kind s.nodeId s.token.lineNr []) = ({s.nodeId}, 0) := by
    refine (loadOf_attrs ..).trans ?_
    rw [if_neg hkind]
    rfl
  rw [zero_add] at hs
  constructor
  · rw [hload, Multiset.range_succ, ← Multiset.singleton_add]
    exact add_le_add_right hs.ids _
  · rw [hload]
    exact (zero_add _).trans hs.flaws

theorem node {kind : AstKind} {f : Ast → Parser α} (hkind : kind ≠ .none)
    (hf : ∀ a, Named [] a → Keeps p (load a + K) (f a) Q) : Keeps p K (newAstNode kind >>= f) Q :=
  .bindNew (.new hkind) hf

/-- A node without attributes that is given up. -/
theorem drop {a : Ast} (ha : Named [] a) (hx : Keeps p K x Q) :
    Keeps p (load a + K) x Q := fun s => by
  refine wp_mono (hx s) (fun b t ⟨htrace, hb, hcounts⟩ => ⟨htrace, hb, fun F hs => hcounts F ?_⟩)
    fun _ he => he
  obtain @⟨kind, id, lineNr, attrs, hkind, hnames⟩ := ha
  obtain rfl := List.map_eq_nil_iff.mp hnames
  have hload : load (Ast.node kind id lineNr []) = _ := loadOf_attrs ..
  rw [hload, if_neg hkind, add_assoc] at hs
  exact ⟨le_trans (Multiset.le_add_left _ _) hs.ids, (zero_add _).symm.trans hs.flaws⟩

end Keeps

theorem setEntry_new {e : Attribute Ast} : ∀ {attrs : List (Attribute Ast)},
    e.name ∉ attrs.map (·.name) → setEntry e attrs = attrs ++ [e]
  | [], _ => rfl
  | d :: attrs, h => by
    rw [List.map_cons, List.mem_cons, not_or] at h
    rw [setEntry, if_neg (Ne.symm h.1), setEntry_new h.2, List.cons_append]

theorem load_ast (a : Ast) : loadOf (valueNodes (.ast a)) = load a := rfl

theorem load_list (l : Option AstList) : loadOf (valueNodes (listValue l)) = load l := by
  cases l <;> rfl

/-- A new attribute adds the load of its value. -/
theorem Named.astSetattr {names : List AttrName} {attr : AttrName} {type : AstAttributeType}
    {value : Value Ast} {a : Ast} (ha : Named names a) (hnew : attr ∉ names)
    (htag : type.Tags value = true) :
    (∃ e, astSetattr a attr type value = stop e) ∨
    ∃ b, astSetattr a attr type value = pure b ∧ Named (names ++ [attr]) b ∧
      load b = loadOf (valueNodes value) + load a ∧ (valueNodes value = [] → Bare attr b) := by
  obtain @⟨kind, id, lineNr, attrs, hkind, rfl⟩ := ha
  have htagged : (⟨attr, type, value⟩ : Attribute Ast).Tagged := htag
  have hvalue : (⟨attr, type, value⟩ : Attribute Ast).load = loadOf (valueNodes value) := by
    rw [Attribute.load, if_pos htagged]
    exact zero_add _
  have hset : setEntry ⟨attr, type, value⟩ attrs = attrs ++ [⟨attr, type, value⟩] :=
    setEntry_new hnew
  by_cases hroom : attrs.length < astAttrtableCapacity ∨ attr ∈ attrs.map (·.name)
  · refine .inr ⟨_, if_pos hroom, .mk hkind ?_, ?_, fun hnone => ?_⟩
    · rw [hset, List.map_append]
      rfl
    · have hload : load (Ast.node kind id lineNr attrs) = _ := loadOf_attrs ..
      refine (loadOf_attrs ..).trans ?_
      rw [hset, List.map_append, List.sum_append, List.map_singleton, List.sum_singleton,
        ← add_assoc, ← hload, hvalue, add_comm]
    · intro e he hname
      rw [Ast.attrs, hset] at he
      rcases List.mem_append.mp he with he | he
      · exact absurd (List.mem_map.mpr ⟨e, he, hname⟩) hnew
      · rw [List.mem_singleton.mp he, hvalue, hnone]
        rfl
  · exact .inl ⟨_, if_neg hroom⟩

namespace Keeps

variable [Loaded α] {f : Ast → Parser α} {Q : α → Prop} {R : Ast → Prop} {names : List AttrName}
  {attr : AttrName} {type : AstAttributeType} {value : Value Ast} {a b : Ast}

theorem set (ha : Named names a) (hnew : attr ∉ names) (htag : type.Tags value = true)
    (hvalue : loadOf (valueNodes value) = L)
    (hf : ∀ b, Named (names ++ [attr]) b → (valueNodes value = [] → Bare attr b) →
      Keeps p (load b + K) (f b) Q) :
    Keeps p (L + (load a + K)) (astSetattr a attr type value >>= f) Q := by
  rcases ha.astSetattr hnew htag with ⟨e, he⟩ | ⟨b, hb, hnamed, hload, hbare⟩
  · rw [he]
    exact fun s => Grows.refl _
  · rw [hb, pure_bind]
    refine (hf b hnamed hbare).of_eq ?_
    rw [hload, hvalue, add_assoc]

/-- The trees of a node given to the new one. -/
theorem setAst (ha : Named names a) (hnew : attr ∉ names)
    (hf : ∀ b, Named (names ++ [attr]) b → Keeps p (load b + K) (f b) Q) :
    Keeps p (load b + (load a + K)) (astSetattr a attr .ast (.ast b) >>= f) Q :=
  set ha hnew rfl (load_ast b) fun b hb _ => hf b hb

theorem setList {l : Option AstList} (ha : Named names a) (hnew : attr ∉ names)
    (hf : ∀ b, Named (names ++ [attr]) b → Keeps p (load b + K) (f b) Q) :
    Keeps p (load l + (load a + K)) (astSetattr a attr .astList (listValue l) >>= f) Q :=
  set ha hnew (by cases l <;> rfl) (load_list l) fun b hb _ => hf b hb

/-- An attribute that leads to no node. -/
theorem setBare (ha : Named names a) (hnew : attr ∉ names) (htag : type.Tags value = true)
    (hvalue : valueNodes value = [])
    (hf : ∀ b, Named (names ++ [attr]) b → Bare attr b → Keeps p (load b + K) (f b) Q) :
    Keeps p (load a + K) (astSetattr a attr type value >>= f) Q := by
  refine (set ha hnew htag (L := 0) ?_ fun b hb hbare => hf b hb (hbare hvalue)).of_eq (zero_add _)
  rw [hvalue]
  rfl

theorem setData (ha : Named names a) (hnew : attr ∉ names) (htag : type.Tags value = true)
    (hvalue : valueNodes value = [])
    (hf : ∀ b, Named (names ++ [attr]) b → Keeps p (load b + K) (f b) Q) :
    Keeps p (load a + K) (astSetattr a attr type value >>= f) Q :=
  setBare ha hnew htag hvalue fun b hb _ => hf b hb

/-- A tree that was there before the node. -/
theorem giveAst (ha : Named names a) (hnew : attr ∉ names)
    (hf : ∀ b, Named (names ++ [attr]) b → Keeps p (load b + K) (f b) Q) :
    Keeps p (load a + (load b + K)) (astSetattr a attr .ast (.ast b) >>= f) Q :=
  (setAst ha hnew hf).of_eq (add_left_comm ..)

theorem setAstLast (ha : Named names a) (hnew : attr ∉ names)
    (hR : ∀ b, Named (names ++ [attr]) b → R b) :
    Keeps p (load b + (load a + 0)) (astSetattr a attr .ast (.ast b)) R := by
  rw [← bind_pure (astSetattr a attr .ast (.ast b))]
  exact setAst ha hnew fun b hb => .pure (hR b hb)

theorem giveAstLast (ha : Named names a) (hnew : attr ∉ names)
    (hR : ∀ b, Named (names ++ [attr]) b → R b) :
    Keeps p (load a + (load b + 0)) (astSetattr a attr .ast (.ast b)) R :=
  (setAstLast ha hnew hR).of_eq (add_left_comm ..)

theorem setListLast {l : Option AstList} (ha : Named names a) (hnew : attr ∉ names)
    (hR : ∀ b, Named (names ++ [attr]) b → R b) :
    Keeps p (load l + (load a + 0)) (astSetattr a attr .astList (listValue l)) R := by
  rw [← bind_pure (astSetattr a attr .astList (listValue l))]
  exact setList ha hnew fun b hb => .pure (hR b hb)

end Keeps

theorem Named.bare {names : List AttrName} {attr : AttrName} {a : Ast} (ha : Named names a)
    (h : attr ∉ names) : Bare attr a := by
  obtain ⟨-, rfl⟩ := ha
  exact fun e he hname => absurd (List.mem_map.mpr ⟨e, he, hname⟩) h

/-- An entry that adds nothing in the place of one that adds nothing. -/
theorem sum_load_setEntry {e : Attribute Ast} (he : e.load = 0) :
    ∀ {attrs : List (Attribute Ast)}, (∀ d ∈ attrs, d.name = e.name → d.load = 0) →
      ((setEntry e attrs).map Attribute.load).sum = (attrs.map Attribute.load).sum
  | [], _ => by rw [setEntry, List.map_singleton, List.sum_singleton, he]; rfl
  | d :: attrs, h => by
    obtain ⟨hd, hrest⟩ := List.forall_mem_cons.mp h
    unfold setEntry
    split
    · rename_i hname
      rw [List.map_cons, List.map_cons, List.sum_cons, List.sum_cons, he, hd hname]
    · rw [List.map_cons, List.map_cons, List.sum_cons, List.sum_cons, sum_load_setEntry he hrest]

/-- An attribute set behind a finished node's back. -/
theorem Keeps.setMore {attr : AttrName} {type : AstAttributeType} {value : Value Ast} {a : Ast}
    (ha : Bare attr a) (htag : type.Tags value = true) (hvalue : valueNodes value = []) :
    Keeps p (load a + 0) (astSetattr a attr type value) Any := by
  cases a with
  | null => exact .stop _
  | node kind id lineNr attrs =>
    by_cases hroom : attrs.length < astAttrtableCapacity ∨ attr ∈ attrs.map (·.name)
    · rw [show astSetattr (.node kind id lineNr attrs) attr type value = Pure.pure _ from
        if_pos hroom]
      refine .of_eq (.pure trivial) ?_
      have he : (⟨attr, type, value⟩ : Attribute Ast).load = 0 := by
        have htagged : (⟨attr, type, value⟩ : Attribute Ast).Tagged := htag
        rw [Attribute.load, if_pos htagged, hvalue]
        rfl
      refine congrArg (· + 0) ((loadOf_attrs ..).trans (.trans ?_ (loadOf_attrs ..).symm))
      exact congrArg _ (sum_load_setEntry he ha)
    · rw [show astSetattr (.node kind id lineNr attrs) attr type value = Parse.stop _ from
        if_neg hroom]
      exact .stop _

/-! ## Lists -/

namespace Keeps

variable [Loaded α] {Q : α → Prop}

theorem newAstList {f : AstList → Parser α} (hf : Keeps p (load ({} : AstList) + K) (f {}) Q) :
    Keeps p K (newAstList >>= f) Q := by
  rw [newAstList_eq, pure_bind]
  exact hf.of_eq (zero_add K)

theorem append {list : AstList} {a : Ast} {f : AstList → Parser α}
    (hf : ∀ list, Keeps p (load list + K) (f list) Q) :
    Keeps p (load a + (load list + K)) (astListAppendLink list a >>= f) Q := by
  unfold astListAppendLink
  split
  · exact fun s => Grows.refl _
  · rw [pure_bind]
    refine (hf _).of_eq ?_
    have hload : load { list with links := list.links ++ [a], linkCount := list.linkCount + 1 } =
        load list + load a := by
      show loadOf (linksNodes (list.links ++ [a])) = _
      rw [linksNodes_append, loadOf_append, linksNodes, linksNodes, List.append_nil]
      rfl
    rw [hload, add_comm (load list), add_assoc]

theorem givenOr {a : Ast} {x : Parser Ast} {f : Ast → Parser α} (hx : Keeps p 0 x Any)
    (hf : ∀ b, Keeps p (load b + (L + K)) (f b) Q) :
    Keeps p (L + (load a + K)) (givenOr a x >>= f) Q := by
  cases a with
  | null =>
    refine (bindNew hx fun b _ => hf b).of_eq ?_
    rw [show load Ast.null = 0 from rfl, zero_add]
  | node => exact (hf _).of_eq (add_left_comm ..)

end Keeps

section

variable {item : Parser Ast} (hitem : Keeps p 0 item Any)
include hitem

theorem commaLoop_keeps [Plain p] : ∀ (fuel : Nat) (list : AstList),
    Keeps p (load list + 0) (commaLoop item fuel list) Any
  | 0, _ => .stop _
  | fuel + 1, list => by
    refine .ifToken (.next (.bindNew hitem fun a _ => ?_)) (.pure trivial)
    exact .append fun list => commaLoop_keeps fuel list

theorem whileLoop_keeps : ∀ (fuel : Nat) (list : AstList),
    Keeps p (load list + 0) (whileLoop c item fuel list) Any
  | 0, _ => .stop _
  | fuel + 1, list => by
    refine .ifToken (.bindNew hitem fun a _ => ?_) (.pure trivial)
    exact .append fun list => whileLoop_keeps fuel list

theorem commaList_keeps [Plain p] (fuel : Nat) : Keeps p 0 (commaList item fuel) Any := by
  refine .newAstList (.bindNew hitem fun a _ => .append fun list => ?_)
  exact .bind (commaLoop_keeps hitem fuel list) fun list _ => .pure trivial

theorem whileList_keeps (fuel : Nat) : Keeps p 0 (whileList c item fuel) Any := by
  refine .newAstList (.bindNew hitem fun a _ => .append fun list => ?_)
  exact .bind (whileLoop_keeps hitem fuel list) fun list _ => .pure trivial

end

/-- A list that may be missing. -/
theorem optList_keeps {list : Parser (Option AstList)} (hlist : Keeps p 0 list Any) :
    Keeps p 0 (ifToken c list (pure none)) Any :=
  .ifToken hlist (.pure (a := none) trivial)

/-- Expressions and types give back what they take. -/
structure Forward.KeepsTypes (fwd : Forward) (p : Call → Bool) : Prop where
  expression : ∀ threshold, Parse.Keeps p 0 (fwd.expression threshold) Any
  typeRef : Parse.Keeps p 0 fwd.typeRef Any

/-- The functions that are declared before they are defined give back what they take. -/
structure Forward.Keeps (fwd : Forward) : Prop where
  plain : fwd.KeepsTypes plainCalls
  types : fwd.KeepsTypes allCalls
  blockStatement : Parse.Keeps allCalls 0 fwd.blockStatement Any
  statement : Parse.Keeps allCalls 0 (fwd.statement .null) Any
  parserStatement : Parse.Keeps allCalls 0 fwd.parserStatement Any

end Dp4c.Parse

import Dp4c.Parse.AlikeProgram
import Dp4c.Parse.Peek
import Dp4c.Parse.Text

/-! # What the parser sees of a token array

The tokens in front of the current one and the comments make no difference to the parser: its
view of a state is the list of the other tokens, the symbol table and the count of nodes. -/
namespace Dp4c.Parse

open Dp4c.Lib Dp4c.Lib.Prog Dp4c.Symtable

structure View where
  ahead : List Token
  scopes : Scopes
  nodeId : Nat

def State.view (s : State) : View :=
  { ahead := spoken (s.tokens.drop s.tokenAt), scopes := s.scopes, nodeId := s.nodeId }

/-- `reclassify` at the first token of a view. -/
def View.reclassify (v : View) : View :=
  match v.ahead with
  | [] => v
  | token :: rest =>
    if token.klass = .identifier then
      { v with
        ahead := { token with klass := wordKlass (v.scopes.lookup token.lexeme) } :: rest
        scopes := v.scopes.enter token.lexeme }
    else v

/-- The current token is one of the array and no comment. -/
structure Placed (s : State) : Prop where
  inBounds : s.tokenAt < s.tokens.length
  token : s.token.klass ≠ .comment
  table : ParserTable s.scopes

variable {s t u : State} {j : Nat}

theorem State.getElem?_token (h : s.tokenAt < s.tokens.length) :
    s.tokens[s.tokenAt]? = some s.token := by
  rw [State.token, List.getD_eq_getElem?_getD, List.getElem?_eq_getElem h, Option.getD_some]

theorem spoken_drop {tokens : List Token} {i : Nat} {token : Token} (h : tokens[i]? = some token)
    (hklass : token.klass ≠ .comment) :
    spoken (tokens.drop i) = token :: spoken (tokens.drop (i + 1)) := by
  obtain ⟨hlt, rfl⟩ := List.getElem?_eq_some_iff.mp h
  unfold spoken
  rw [List.drop_eq_getElem_cons hlt, List.filter_cons_of_pos (by simpa using hklass)]

theorem Placed.ahead (h : Placed s) :
    s.view.ahead = s.token :: spoken (s.tokens.drop (s.tokenAt + 1)) :=
  spoken_drop (State.getElem?_token h.inBounds) h.token

theorem reclassify_klass (hs : Placed s) : (reclassify s).token.klass ≠ .comment := by
  obtain ⟨⟨hget, -⟩, -⟩ := reclassify_settled (State.getElem?_token hs.inBounds)
  rw [← (reclassify_same s).2.1] at hget
  rw [State.token_of hget]
  show readKlass s.scopes s.token ≠ .comment
  unfold readKlass
  split
  · exact hs.table.wordKlass_ne _
  · exact hs.token

theorem Placed.reclassify (hs : Placed s) : Placed (reclassify s) := by
  obtain ⟨hlen, hat, -⟩ := reclassify_same s
  refine ⟨by rw [hlen, hat]; exact hs.inBounds, reclassify_klass hs, ?_⟩
  unfold Parse.reclassify
  split
  · exact hs.table.enter _
  · exact hs.table

theorem view_reclassify (hs : Placed s) : (reclassify s).view = s.view.reclassify := by
  unfold View.reclassify
  rw [hs.ahead]
  by_cases hid : s.token.klass = .identifier
  · have hahead := hs.reclassify.ahead
    have hrest : spoken ((reclassify s).tokens.drop ((reclassify s).tokenAt + 1)) =
        spoken (s.tokens.drop (s.tokenAt + 1)) := by
      rw [(reclassify_same s).2.1, reclassify_drop s (Nat.lt_succ_self _)]
    have htoken : (reclassify s).token =
        { s.token with klass := wordKlass (s.scopes.lookup s.token.lexeme) } := by
      refine State.token_of ?_
      rw [reclassify_identifier hid]
      exact List.getElem?_set_self hs.inBounds
    rw [hrest, htoken] at hahead
    have hscopes : (reclassify s).scopes = s.scopes.enter s.token.lexeme := by
      rw [reclassify_identifier hid]
    have hid' : (reclassify s).nodeId = s.nodeId := by rw [reclassify_identifier hid]
    dsimp only
    rw [if_pos hid]
    show (⟨(reclassify s).view.ahead, (reclassify s).scopes, (reclassify s).nodeId⟩ : View) = _
    rw [hahead, hscopes, hid']
    rfl
  · rw [reclassify_other hid]
    dsimp only
    rw [if_neg hid]

/-! ## `next_token` and `peek_token` -/

/-- The view behind the next token. -/
def View.next (v : View) : View := View.reclassify { v with ahead := v.ahead.tail }

/-- What `next_token` leaves behind. -/
structure Moved (s u : State) : Prop where
  placed : Placed u
  view : u.view = s.view.next
  prev : u.prevTokenAt = s.tokenAt
  after : s.tokenAt < u.tokenAt
  same : u.tokens[s.tokenAt]? = s.tokens[s.tokenAt]?
  comments : ∀ k, s.tokenAt < k → k < u.tokenAt → (u.tokens.getD k {}).klass = .comment

theorem NextAt.tail (hs : Placed s) (h : NextAt s j) :
    s.view.ahead.tail = spoken (s.tokens.drop j) := by
  rw [hs.ahead, List.tail_cons]
  exact dropComments _ _ _ _ rfl h.after fun k hk => h.comments k hk

theorem NextAt.moved (hs : Placed s) (h : NextAt s j) :
    ∃ u, Parse.nextToken s = .ok ((), u) ∧ Moved s u := by
  refine ⟨_, h.nextToken, ?_⟩
  generalize hv : ({ s with
    trace := ⟨.nextToken, s.tokenAt, s.token.klass⟩ :: s.trace, tokenAt := j,
    prevTokenAt := s.tokenAt } : State) = v
  have hplaced : Placed v := by
    rw [← hv]
    exact ⟨h.inBounds, h.token, hs.table⟩
  have hat : v.tokenAt = j := by rw [← hv]
  have htokens : v.tokens = s.tokens := by rw [← hv]
  obtain ⟨-, hat', hprev, -⟩ := reclassify_same v
  have hsame : ∀ k, k ≠ j → (reclassify v).tokens[k]? = s.tokens[k]? := fun k hk => by
    rw [reclassify_get v (.inl (hat ▸ hk)), htokens]
  refine ⟨hplaced.reclassify, ?_, hprev.trans (by rw [← hv]), ?_, hsame _ ?_, fun k hk hkj => ?_⟩
  · rw [view_reclassify hplaced, View.next, h.tail hs, ← hv]
    rfl
  · rw [hat', hat]
    exact h.after
  · exact Nat.ne_of_lt h.after
  · rw [hat', hat] at hkj
    rw [List.getD_eq_getElem?_getD, hsame k (by omega), ← List.getD_eq_getElem?_getD]
    exact h.comments k hk hkj

/-- `next_token` goes on where something is ahead, and runs off the array elsewhere. -/
theorem Placed.next (hs : Placed s) :
    (s.view.ahead.tail ≠ [] ∧ ∃ u, nextToken s = .ok ((), u) ∧ Moved s u) ∨
    (s.view.ahead.tail = [] ∧ ∃ e, nextToken s = .error e ∧
      e.exit = .assertion "i >= 0 && i < array->elem_count") := by
  rcases nextToken_run hs.inBounds with ⟨j, hlt, hj, hcomments, hstop, -⟩ | ⟨herror, hcomments⟩
  · have hnext : NextAt s j := ⟨hlt, hj, hcomments, hstop⟩
    refine .inl ⟨?_, hnext.moved hs⟩
    have hget : s.tokens[j]? = some (s.tokens.getD j {}) := by
      rw [List.getD_eq_getElem?_getD, List.getElem?_eq_getElem hj, Option.getD_some]
    rw [hnext.tail hs, spoken_drop hget hstop]
    exact List.cons_ne_nil _ _
  · refine .inr ⟨?_, _, herror, rfl⟩
    rw [hs.ahead, List.tail_cons, spoken,
      dropComments _ _ _ _ rfl hs.inBounds fun k hk => hcomments k hk, List.drop_length]
    rfl

/-- The position is taken back. -/
theorem Moved.back (hs : Placed s) (h : Moved s u) :
    Placed { u with tokenAt := u.prevTokenAt } ∧
      ({ u with tokenAt := u.prevTokenAt } : State).view =
        { u.view with ahead := s.token :: u.view.ahead } := by
  have hget : u.tokens[s.tokenAt]? = some s.token := h.same.trans (State.getElem?_token hs.inBounds)
  have htoken : u.tokens.getD s.tokenAt {} = s.token := by
    rw [List.getD_eq_getElem?_getD, hget, Option.getD_some]
  rw [h.prev]
  refine ⟨⟨(List.getElem?_eq_some_iff.mp hget).1, fun hc => hs.token ?_, h.placed.table⟩, ?_⟩
  · rw [← htoken]
    exact hc
  have hahead : spoken (u.tokens.drop s.tokenAt) = s.token :: spoken (u.tokens.drop u.tokenAt) := by
    rw [spoken_drop hget hs.token]
    exact congrArg _ (dropComments _ _ _ _ rfl h.after fun k hk => h.comments k hk)
  show (⟨spoken (u.tokens.drop s.tokenAt), u.scopes, u.nodeId⟩ : View) = _
  rw [hahead]
  rfl

/-! ## States with one view -/

/-- The view without the places of the tokens in the text. -/
def View.content (v : View) : View := { v with ahead := v.ahead.map Token.content }

theorem View.content_reclassify (v : View) : v.reclassify.content = v.content.reclassify := by
  obtain ⟨ahead, scopes, nodeId⟩ := v
  cases ahead with
  | nil => rfl
  | cons token rest =>
    show (if token.klass = .identifier then _ else _ : View).content =
      if token.content.klass = .identifier then _ else _
    by_cases hid : token.klass = .identifier
    · rw [if_pos hid, if_pos (show token.content.klass = .identifier from hid)]
      rfl
    · rw [if_neg hid, if_neg (show ¬ token.content.klass = .identifier from hid)]

theorem View.content_next (v : View) : v.next.content = v.content.next := by
  rw [View.next, View.content_reclassify]
  show View.reclassify { v with ahead := v.ahead.tail.map Token.content } =
    View.reclassify { v with ahead := (v.ahead.map Token.content).tail }
  rw [List.map_tail]

/-- The parser is at a token, and the tokens ahead are words. -/
structure Sighted (p : Cstr → Prop) (s : State) : Prop where
  placed : Placed s
  words : ∀ token ∈ s.view.ahead, p token.lexeme

/-- The states have the same view, of tokens whose lexemes are in `p`; they are the same
where `exact` holds. -/
structure SameView (exact : Prop) (p : Cstr → Prop) (s t : State) : Prop where
  left : Placed s
  right : Sighted p t
  view : s.view.content = t.view.content
  same : exact → s = t

/-- The list of a tuple keyset has a `head` that is no null pointer. -/
def TupleStop (e : Stop) : Prop :=
  e.exit = .assertion "list->head == 0" ∧ ∃ step ∈ e.state.trace, step.call = .tupleKeyset

variable {exact : Prop} {p : Cstr → Prop} {memory memory' : Memory}

theorem Sighted.lexeme (h : Sighted p t) : p t.token.lexeme :=
  h.words t.token (by rw [h.placed.ahead]; exact List.mem_cons_self ..)

/-- Reclassifying leaves the lexemes as they are. -/
theorem View.lexeme_reclassify {v : View} {token : Token} (h : token ∈ v.reclassify.ahead) :
    ∃ token' ∈ v.ahead, token'.lexeme = token.lexeme := by
  unfold View.reclassify at h
  split at h
  · exact ⟨token, h, rfl⟩
  · rename_i first rest hahead
    rw [hahead]
    split at h
    · rcases List.mem_cons.mp h with rfl | h
      · exact ⟨first, List.mem_cons_self .., rfl⟩
      · exact ⟨token, List.mem_cons_of_mem _ h, rfl⟩
    · exact ⟨token, hahead ▸ h, rfl⟩

theorem Sighted.moved {v : State} (h : Sighted p t) (hv : Moved t v) : Sighted p v := by
  refine ⟨hv.placed, fun token htoken => ?_⟩
  rw [hv.view] at htoken
  obtain ⟨token', hmem, hlexeme⟩ := View.lexeme_reclassify htoken
  exact hlexeme ▸ h.words token' (List.mem_of_mem_tail hmem)

theorem Sighted.back {v : State} (h : Sighted p t) (hv : Moved t v) :
    Sighted p { v with tokenAt := v.prevTokenAt } := by
  obtain ⟨hplaced, hview⟩ := hv.back h.placed
  refine ⟨hplaced, fun token htoken => ?_⟩
  rw [hview] at htoken
  rcases List.mem_cons.mp htoken with rfl | htoken
  · exact h.lexeme
  · exact (h.moved hv).words token htoken

theorem SameView.token (h : SameView exact p s t) : s.token.content = t.token.content := by
  have hahead : s.view.ahead.map Token.content = t.view.ahead.map Token.content :=
    congrArg View.ahead h.view
  rw [h.left.ahead, h.right.placed.ahead] at hahead
  exact (List.cons.inj hahead).1

theorem SameView.moved {u v : State} (h : SameView exact p s t) (hu : Moved s u) (hv : Moved t v)
    (hsame : exact → u = v) : SameView exact p u v := by
  refine ⟨hu.placed, h.right.moved hv, ?_, hsame⟩
  rw [hu.view, hv.view, View.content_next, View.content_next, h.view]

theorem SameView.back {u v : State} (h : SameView exact p s t) (hu : Moved s u) (hv : Moved t v)
    (hsame : exact → u = v) : SameView exact p { u with tokenAt := u.prevTokenAt }
      { v with tokenAt := v.prevTokenAt } := by
  obtain ⟨hleft, hview⟩ := hu.back h.left
  obtain ⟨-, hview'⟩ := hv.back h.right.placed
  refine ⟨hleft, h.right.back hv, ?_, fun he => by rw [hsame he]⟩
  have hahead : u.view.content = v.view.content := (h.moved hu hv hsame).view
  rw [hview, hview']
  show { u.view.content with ahead := s.token.content :: u.view.content.ahead } =
    { v.view.content with ahead := t.token.content :: v.view.content.ahead }
  rw [hahead, h.token]

theorem SameView.tail (h : SameView exact p s t) :
    s.view.ahead.tail = [] ↔ t.view.ahead.tail = [] := by
  have hahead : s.view.ahead.map Token.content = t.view.ahead.map Token.content :=
    congrArg View.ahead h.view
  rw [← List.map_eq_nil_iff (f := Token.content), List.map_tail, hahead, ← List.map_tail,
    List.map_eq_nil_iff]

/-- Both runs go on to the next token, or both run off the array. -/
theorem SameView.next (h : SameView exact p s t) :
    (∃ u v, nextToken s = .ok ((), u) ∧ nextToken t = .ok ((), v) ∧ Moved s u ∧ Moved t v ∧
      (exact → u = v)) ∨
    ∃ e d, nextToken s = .error e ∧ nextToken t = .error d ∧ e.exit = d.exit := by
  rcases h.left.next with ⟨htail, u, hu, hmoved⟩ | ⟨htail, e, he, hexit⟩
  · rcases h.right.placed.next with ⟨-, v, hv, hmoved'⟩ | ⟨htail', -⟩
    · refine .inl ⟨u, v, hu, hv, hmoved, hmoved', fun hsame => ?_⟩
      rw [h.same hsame, hv] at hu
      exact (Prod.mk.inj (Except.ok.inj hu)).2.symm
    · exact absurd (h.tail.mpr htail') htail
  · rcases h.right.placed.next with ⟨htail', -⟩ | ⟨-, d, hd, hexit'⟩
    · exact absurd (h.tail.mp htail) htail'
    · exact .inr ⟨e, d, he, hd, hexit.trans hexit'.symm⟩

/-- The runs find the same in memory, at the same tokens or wherever they are. -/
def SameMemory (exact : Prop) (memory memory' : Memory) : Prop :=
  ∀ i j, (exact → i = j) → memory i = memory' j

def sameView (exact : Prop) (p : Cstr → Prop) (memory memory' : Memory) : Correspondence :=
  { states := SameView exact p
    exits := fun e d => e.exit = d.exit
    exits_of_states := fun _ _ => rfl
    second := Sighted p
    second_of_states := SameView.right
    passed := fun e _ => ¬ SameMemory exact memory memory' ∧ TupleStop e
    word := p
    memory := memory
    memory' := memory' }

theorem Sighted.next {E : Stop → Prop} (h : Sighted p t) (hE : ∀ d, E d) :
    wp nextToken t (fun _ v => Moved t v) E := by
  rcases h.placed.next with ⟨-, v, hv, hmoved⟩ | ⟨-, d, hd, -⟩
  · exact wp_of_ok hv hmoved
  · exact wp_of_error hd (hE d)

theorem sameView_next :
    Alike (sameView exact p memory memory') (fun _ => True) nextToken nextToken where
  both s t h := by
    rcases SameView.next h with ⟨u, v, hu, hv, hmoved, hmoved', hsame⟩ | ⟨e, d, he, hd, hexit⟩
    · exact wp_of_ok hu (wp_of_ok hv ⟨rfl, SameView.moved h hmoved hmoved' hsame⟩)
    · exact wp_of_error he (wp_of_error hd (.inl hexit))
  goes t h := wp_mono (Sighted.next h fun _ _ h => h)
    (fun _ _ hmoved => ⟨trivial, Sighted.moved h hmoved, fun _ h => h⟩) fun _ h => h

theorem Sighted.noted (h : Sighted p t) (call : Call) :
    Sighted p { t with trace := ⟨call, t.tokenAt, t.token.klass⟩ :: t.trace } :=
  ⟨⟨h.placed.inBounds, h.placed.token, h.placed.table⟩, h.words⟩

theorem SameView.noted (h : SameView exact p s t) (call : Call) :
    SameView exact p { s with trace := ⟨call, s.tokenAt, s.token.klass⟩ :: s.trace }
      { t with trace := ⟨call, t.tokenAt, t.token.klass⟩ :: t.trace } :=
  ⟨⟨h.left.inBounds, h.left.token, h.left.table⟩, h.right.noted call, h.view,
    fun he => by rw [h.same he]⟩

theorem sameView_note (call : Call) :
    Alike (sameView exact p memory memory') (fun _ => True) (note call) (note call) where
  both _ _ h := ⟨rfl, SameView.noted h call⟩
  goes _ h := ⟨trivial, Sighted.noted h call, fun _ h => h⟩

theorem sameView_peek : InStep (sameView exact p memory memory').pairing
    (fun a b => a.content = b.content) (fun _ => True) peekToken peekToken where
  both s t h := by
    have h := SameView.noted h .peekToken
    refine (wp_congr (bind_of_ok rfl _)).mpr ?_
    rcases h.next with ⟨u, v, hu, hv, hmoved, hmoved', hsame⟩ | ⟨e, d, he, hd, hexit⟩
    · refine wp_of_ok (bind_of_ok hu _) (wp_of_ok (bind_of_ok hv _) ⟨?_, ?_⟩)
      · exact (h.moved hmoved hmoved' hsame).token
      · exact h.back hmoved hmoved' hsame
    · exact wp_of_error (bind_of_error he _) (wp_of_error (bind_of_error hd _) (.inl hexit))
  goes t h := by
    have h := Sighted.noted h .peekToken
    refine (wp_congr (bind_of_ok rfl _)).mpr ((wp_bind ..).mpr ?_)
    exact wp_mono (h.next fun _ _ h => h)
      (fun _ _ hmoved => ⟨trivial, h.back hmoved, fun _ h => h⟩) fun _ h => h

theorem Sighted.node (h : Sighted p t) : Sighted p { t with nodeId := t.nodeId + 1 } :=
  ⟨⟨h.placed.inBounds, h.placed.token, h.placed.table⟩, h.words⟩

theorem sameView_node (h : SameView exact p s t) : s.nodeId = t.nodeId ∧
    SameView exact p { s with nodeId := s.nodeId + 1 } { t with nodeId := t.nodeId + 1 } :=
  ⟨congrArg View.nodeId h.view, ⟨h.left.inBounds, h.left.token, h.left.table⟩, h.right.node,
    congrArg (fun v : View => { v with nodeId := v.nodeId + 1 }) h.view,
    fun he => by rw [h.same he]⟩

theorem Sighted.declare (h : Sighted p t) (name : Cstr) (id : Option Nat) :
    Sighted p { t with scopes := t.scopes.newType name id } :=
  ⟨⟨h.placed.inBounds, h.placed.token, h.placed.table.newType name id⟩, h.words⟩

theorem sameView_declare (h : SameView exact p s t) (name : Cstr) (id : Option Nat) :
    SameView exact p { s with scopes := s.scopes.newType name id }
      { t with scopes := t.scopes.newType name id } :=
  ⟨⟨h.left.inBounds, h.left.token, h.left.table.newType name id⟩, h.right.declare name id,
    congrArg (fun v : View => { v with scopes := v.scopes.newType name id }) h.view,
    fun he => by rw [h.same he]⟩

/-! ## Memory -/

/-- Equal memory, or a first memory in which each list has a `head` that is no null pointer. -/
def Comparable (exact : Prop) (memory memory' : Memory) : Prop :=
  SameMemory exact memory memory' ∨ ∀ i, word (memset 8 (memory i)) 24 8 ≠ 0

theorem newTupleList_eq (memory : Memory) (s : State) : newTupleList memory s =
    astListInit (memset 8 (memory s.tokenAt)) { s with
      trace := ⟨.tupleKeyset, s.tokenAt, s.token.klass⟩ :: s.trace } := rfl

theorem sameView_tuple (hmemory : Comparable exact memory memory') :
    Alike (sameView exact p memory memory') (sameView exact p memory memory').Trees
      (newTupleList memory) (newTupleList memory') where
  both s t h := by
    have hnoted := SameView.noted h .tupleKeyset
    by_cases hsame : SameMemory exact memory memory'
    · have hbytes : memory s.tokenAt = memory' t.tokenAt :=
        hsame _ _ fun he => by rw [SameView.same h he]
      have hlist := (astListInit_alike (sameView exact p memory memory')
        (memset 8 (memory s.tokenAt))).both _ _ hnoted
      have hright := newTupleList_eq memory' t
      rw [← hbytes] at hright
      refine (wp_congr (newTupleList_eq memory s)).mpr (wp_mono hlist (fun _ _ hu => ?_) ?_)
      · exact (wp_congr hright).mpr hu
      · exact fun e he => (wp_congr hright).mpr he
    · have herror : newTupleList memory s = .error ⟨.assertion "list->head == 0", { s with
          trace := ⟨.tupleKeyset, s.tokenAt, s.token.klass⟩ :: s.trace }⟩ := by
        rw [newTupleList_eq, astListInit, if_neg (hmemory.resolve_left hsame _)]
        rfl
      refine wp_of_error herror ((wp_congr (newTupleList_eq memory' t)).mpr ?_)
      exact (astListInit_alike (sameView exact p memory memory')
        (memset 8 (memory' t.tokenAt))).goes.ends hnoted.right
          ⟨hsame, rfl, _, List.mem_cons_self .., rfl⟩
  goes t h := (wp_congr (newTupleList_eq memory' t)).mpr
    ((astListInit_alike (sameView exact p memory memory') _).goes _ (Sighted.noted h .tupleKeyset))

/-- The parser sees no more of a state than its view. -/
def viewLikeness (p : Cstr → Prop) (hmemory : Comparable exact memory memory') : Likeness :=
  { sameView exact p memory memory' with
    passed_later := fun h _ => h
    token := SameView.token
    lexeme := Sighted.lexeme
    node := sameView_node
    declare := sameView_declare
    second_node := Sighted.node
    second_declare := Sighted.declare
    note := sameView_note
    next := sameView_next
    peek := sameView_peek
    tuple := sameView_tuple hmemory }

end Dp4c.Parse

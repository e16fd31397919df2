import Dp4c.Ast
import Dp4c.Hash
import Dp4c.Lib.Chain
import Mathlib.Data.List.Dedup
import Mathlib.Data.List.Perm.Subperm

/-! # The attribute table of a node (ast.c)

A node spreads its attributes over fifteen buckets by the hash of their names. A bucket is a
chain of entries in `attr_storage`; an entry's address is its index there. The table means
the latest value set for each name, whatever the names collide on, and the iterator visits
each of these once: it resumes at the next bucket that is not empty.

Allocations succeed, and the value type is a parameter, `none` being the null pointer. -/
namespace Dp4c.AttrTable

open Dp4c.Lib Dp4c.Lib.Prog

/-- `AST_ATTRTABLE_CAPACITY_LOG2`. -/
def astAttrtableCapacityLog2 : Nat := 4

structure AstAttribute (V : Type) where
  name : Cstr
  type : AstAttributeType := .none
  value : Option V := none
  nextAttr : Option Nat := none

/-- The attributes of a `struct Ast`, null when the node has been cleared, and `attr_storage`
with the entries of all nodes. -/
structure State (V : Type) where
  attrCount : Nat := 0
  attrs : List (Option Nat) := List.replicate astAttrtableCapacity none
  storage : List (AstAttribute V) := []

/-- `struct AstAttributeIterator`, its node being the one of the state. -/
structure AstAttributeIterator where
  tableI : Nat := 0
  attrAt : Option Nat := none

variable {V : Type}

abbrev AttrM (V : Type) := Prog Exit (State V)

def deref (p : Nat) : AttrM V (AstAttribute V) := fun s =>
  match s.storage[p]? with
  | some entry => .ok (entry, s)
  | none => .error .fault

def attrsGet (i : Nat) : AttrM V (Option Nat) := fun s =>
  match s.attrs[i]? with
  | some entry => .ok (entry, s)
  | none => .error .fault

/-- The search that `ast_getattr` and `ast_setattr` share, along one chain. -/
def findAttr (attrName : Cstr) : Nat → Option Nat → AttrM V (Option Nat)
  | 0, _ => Prog.exit .outOfFuel
  | _ + 1, none => pure none
  | fuel + 1, some p => do
    let entry ← deref p
    let found ← Prog.lift .fault (cstrMatch entry.name attrName)
    if found then pure (some p) else findAttr attrName fuel entry.nextAttr

def astGetattr (attrName : Cstr) : AttrM V (Option V) := do
  let h := hashString attrName astAttrtableCapacityLog2
  let s ← Prog.state
  match ← findAttr attrName (s.storage.length + 1) (← attrsGet h) with
  | some entry => do
    let entry ← deref entry
    pure entry.value
  | none => pure none

/-- The new entry of `ast_setattr`, in front of the chain at index `h`. -/
def pushAttr (attrName : Cstr) (h : Nat) : AttrM V Nat := do
  let s ← Prog.state
  Prog.check (s.attrCount < astAttrtableCapacity)
    (.assertion "ast->attr_count < AST_ATTRTABLE_CAPACITY")
  let head ← attrsGet h
  Prog.modify fun s =>
    { s with
      storage := s.storage ++ [{ name := attrName, nextAttr := head }]
      attrs := s.attrs.set h (some s.storage.length)
      attrCount := s.attrCount + 1 }
  pure s.storage.length

def astSetattr (attrName : Cstr) (attrValue : Option V) (attrType : AstAttributeType) :
    AttrM V Unit := do
  let h := hashString attrName astAttrtableCapacityLog2
  let s ← Prog.state
  let found ← findAttr attrName (s.storage.length + 1) (← attrsGet h)
  let entry ← match found with
    | some entry => pure entry
    | none => pushAttr attrName h
  Prog.modify fun s =>
    { s with storage := s.storage.modify entry fun e =>
        { e with type := attrType, value := attrValue } }

/-- `for (; table_i < AST_ATTRTABLE_CAPACITY; table_i++)`: on to a bucket that is not empty. -/
def seekBucket : Nat → Nat → AttrM V AstAttributeIterator
  | 0, _ => Prog.exit .outOfFuel
  | fuel + 1, tableI =>
    if tableI < astAttrtableCapacity then do
      let attrAt ← attrsGet tableI
      if attrAt.isSome then pure ⟨tableI, attrAt⟩ else seekBucket fuel (tableI + 1)
    else pure ⟨tableI, none⟩

def astAttriterInit : AttrM V AstAttributeIterator := seekBucket (astAttrtableCapacity + 1) 0

def astAttriterGetNext (iter : AstAttributeIterator) : AttrM V AstAttributeIterator :=
  match iter.attrAt with
  | none => pure iter
  | some p => do
    let entry ← deref p
    if entry.nextAttr.isSome then pure { iter with attrAt := entry.nextAttr }
    else seekBucket (astAttrtableCapacity + 1) (iter.tableI + 1)

/-- The entries that `for (attr = init; attr; attr = get_next)` comes by, in order. -/
def iterate : Nat → AstAttributeIterator → AttrM V (List (AstAttribute V))
  | 0, _ => Prog.exit .outOfFuel
  | fuel + 1, iter =>
    match iter.attrAt with
    | none => pure []
    | some p => do
      let attr ← deref p
      let rest ← iterate fuel (← astAttriterGetNext iter)
      pure (attr :: rest)

def iterateAll : AttrM V (List (AstAttribute V)) := do
  let s ← Prog.state
  iterate (s.storage.length + 1) (← astAttriterInit)

/-! ## What a table means -/

/-- The arguments of one `ast_setattr`. -/
structure Setting (V : Type) where
  attrName : Cstr
  attrValue : Option V
  attrType : AstAttributeType

def Setting.exec (c : Setting V) : AttrM V Unit := astSetattr c.attrName c.attrValue c.attrType

/-- What an entry holds. -/
def AstAttribute.setting (entry : AstAttribute V) : Setting V :=
  ⟨entry.name, entry.value, entry.type⟩

/-- The latest of the calls that set a name. -/
def latest (calls : List (Setting V)) (name : Cstr) : Option (Setting V) :=
  calls.reverse.find? (·.attrName = name)

def execAll : List (Setting V) → AttrM V Unit
  | [] => pure ()
  | c :: calls => do
    c.exec
    execAll calls

/-- The number of names the calls set. -/
def distinctNames (calls : List (Setting V)) : Nat := (calls.map (·.attrName)).dedup.length

theorem latest_concat (calls : List (Setting V)) (c : Setting V) (name : Cstr) :
    latest (calls ++ [c]) name = if c.attrName = name then some c else latest calls name := by
  unfold latest
  rw [List.reverse_append, List.reverse_singleton, List.singleton_append, List.find?_cons]
  by_cases h : c.attrName = name <;> simp [h]

theorem latest_isSome (calls : List (Setting V)) (name : Cstr) :
    (latest calls name).isSome ↔ name ∈ calls.map (·.attrName) := by
  simp [latest, List.find?_isSome, List.mem_map]

/-- The index of a name's bucket. -/
def bucketOf (name : Cstr) : Nat := hashString name astAttrtableCapacityLog2

theorem bucketOf_lt (name : Cstr) : bucketOf name < astAttrtableCapacity :=
  hashString_lt name (m := 4) (by decide) (by decide)

variable {s t : State V} {chain : Nat → List Nat} {cell : Nat → AstAttribute V}
  {calls : List (Setting V)} {E : Exit → Prop}

/-- The addresses in the buckets from index `i` on. -/
def nodesFrom (chain : Nat → List Nat) (i n : Nat) : List Nat := (List.range' i n).flatMap chain

/-- All addresses, bucket by bucket. -/
def nodes (chain : Nat → List Nat) : List Nat := nodesFrom chain 0 astAttrtableCapacity

/-- The table holds what these calls have set: `chain` are the addresses in each bucket,
`cell` the entries there. -/
structure Holds (s : State V) (chain : Nat → List Nat) (cell : Nat → AstAttribute V)
    (calls : List (Setting V)) : Prop where
  buckets : s.attrs.length = astAttrtableCapacity
  chains : ∀ i head, s.attrs[i]? = some head →
    Chain (fun p => (cell p).nextAttr) head (chain i)
  read : ∀ i < astAttrtableCapacity, ∀ p ∈ chain i, s.storage[p]? = some (cell p)
  hash : ∀ i < astAttrtableCapacity, ∀ p ∈ chain i, bucketOf (cell p).name = i
  named : ∀ i < astAttrtableCapacity, ∀ p ∈ chain i, (cell p).name.bytes ≠ []
  names : ∀ i < astAttrtableCapacity, ((chain i).map fun p => (cell p).name).Nodup
  count : s.attrCount = (nodes chain).length
  content : ∀ name, latest calls name =
    ((chain (bucketOf name)).find? fun p => (cell p).name = name).map fun p => (cell p).setting

namespace Holds

theorem mem_nodes {p : Nat} :
    p ∈ nodes chain ↔ ∃ i < astAttrtableCapacity, p ∈ chain i := by
  simp [nodes, nodesFrom]

theorem lt_storage (h : Holds s chain cell calls) {i p : Nat} (hi : i < astAttrtableCapacity)
    (hp : p ∈ chain i) : p < s.storage.length :=
  (List.getElem?_eq_some_iff.mp (h.read i hi p hp)).1

/-- Names of different buckets have different hashes. -/
theorem nodes_names_nodup (h : Holds s chain cell calls) :
    ((nodes chain).map fun p => (cell p).name).Nodup := by
  rw [nodes, nodesFrom, List.map_flatMap, List.nodup_flatMap]
  refine ⟨fun i hi => h.names i (by simpa using hi), ?_⟩
  refine List.Pairwise.imp_of_mem ?_ List.nodup_range'
  intro i j hi hj hne name hni hnj
  obtain ⟨p, hp, rfl⟩ := List.mem_map.mp hni
  obtain ⟨q, hq, hpq⟩ := List.mem_map.mp hnj
  have hbi := h.hash i (by simpa using hi) p hp
  have hbj := h.hash j (by simpa using hj) q hq
  rw [hpq, hbi] at hbj
  exact hne hbj

theorem nodes_length_le (h : Holds s chain cell calls) :
    (nodes chain).length ≤ s.storage.length := by
  have hnodup : (nodes chain).Nodup := h.nodes_names_nodup.of_map
  have hsub : nodes chain ⊆ List.range s.storage.length := by
    intro p hp
    obtain ⟨i, hi, hpi⟩ := mem_nodes.mp hp
    exact List.mem_range.mpr (h.lt_storage hi hpi)
  simpa using (hnodup.subperm hsub).length_le

theorem bucket_length_le (h : Holds s chain cell calls) {i : Nat}
    (hi : i < astAttrtableCapacity) : (chain i).length ≤ s.storage.length := by
  refine Nat.le_trans ?_ h.nodes_length_le
  have hmem : i ∈ List.range' 0 astAttrtableCapacity := by simpa using hi
  obtain ⟨l₁, l₂, hl⟩ := List.append_of_mem hmem
  rw [nodes, nodesFrom, hl, List.flatMap_append, List.flatMap_cons]
  simp only [List.length_append]
  omega

/-- The names in the table are those the calls have set. -/
theorem mem_names (h : Holds s chain cell calls) (name : Cstr) :
    name ∈ (nodes chain).map (fun p => (cell p).name) ↔ name ∈ calls.map (·.attrName) := by
  rw [← latest_isSome, h.content, Option.isSome_map, List.find?_isSome]
  constructor
  · intro hm
    obtain ⟨p, hp, rfl⟩ := List.mem_map.mp hm
    obtain ⟨i, hi, hpi⟩ := mem_nodes.mp hp
    exact ⟨p, by rwa [h.hash i hi p hpi], by simp⟩
  · rintro ⟨p, hp, hname⟩
    refine List.mem_map.mpr ⟨p, mem_nodes.mpr ⟨_, bucketOf_lt name, hp⟩, by simpa using hname⟩

/-- There is an entry for each distinct name. -/
theorem nodes_length (h : Holds s chain cell calls) :
    (nodes chain).length = distinctNames calls := by
  have hperm : ((nodes chain).map fun p => (cell p).name).Perm (calls.map (·.attrName)).dedup :=
    (List.perm_ext_iff_of_nodup h.nodes_names_nodup (List.nodup_dedup _)).mpr fun name => by
      rw [List.mem_dedup, h.mem_names]
  simpa [distinctNames] using hperm.length_eq

end Holds

/-! ## Searching a chain -/

theorem wp_deref {p : Nat} {entry : AstAttribute V} (h : s.storage[p]? = some entry)
    {Q : AstAttribute V → State V → Prop} : wp (deref p) s Q E ↔ Q entry s := by
  simp [wp, deref, h]

theorem wp_attrsGet {i : Nat} {head : Option Nat} (h : s.attrs[i]? = some head)
    {Q : Option Nat → State V → Prop} : wp (attrsGet i) s Q E ↔ Q head s := by
  simp [wp, attrsGet, h]

theorem wp_findAttr (name : Cstr) : ∀ (l : List Nat) (fuel : Nat) (p : Option Nat),
    Chain (fun q => (cell q).nextAttr) p l → (∀ q ∈ l, s.storage[q]? = some (cell q)) →
    (∀ q ∈ l, (cell q).name.bytes ≠ []) → l.length < fuel →
    wp (findAttr name fuel p) s
      (fun r t => t = s ∧ r = l.find? fun q => (cell q).name = name) E
  | _, 0, _, _, _, _, hf => absurd hf (Nat.not_lt_zero _)
  | [], _ + 1, _, hc, _, _, _ => by
    rw [Chain.nil_iff.mp hc]
    exact ⟨rfl, rfl⟩
  | q :: l, fuel + 1, _, hc, hread, hnamed, hf => by
    obtain ⟨rfl, hrest⟩ := hc
    have hmatch := cstrMatch_eq (cell q).name name (hnamed q List.mem_cons_self)
    unfold findAttr
    rw [wp_bind, wp_deref (hread q List.mem_cons_self), wp_bind, hmatch, wp_lift_some]
    by_cases hname : (cell q).name = name
    · simp [hname]
    · have ih := wp_findAttr name l fuel _ hrest
        (fun r hr => hread r (List.mem_cons_of_mem _ hr))
        (fun r hr => hnamed r (List.mem_cons_of_mem _ hr)) (by simpa using hf)
      simpa [hname] using ih

/-- The search for a name ends, in its bucket. -/
theorem Holds.wp_search (h : Holds s chain cell calls) (name : Cstr) :
    wp (do findAttr name (s.storage.length + 1) (← attrsGet (bucketOf name))) s
      (fun r t => t = s ∧ r = (chain (bucketOf name)).find? fun q => (cell q).name = name) E := by
  have hb := bucketOf_lt name
  have hlen : bucketOf name < s.attrs.length := by rw [h.buckets]; exact hb
  have hget := List.getElem?_eq_getElem hlen
  rw [wp_bind, wp_attrsGet hget]
  exact wp_findAttr name _ _ _ (h.chains _ _ hget) (h.read _ hb) (h.named _ hb)
    (Nat.lt_succ_of_le (h.bucket_length_le hb))

theorem Holds.wp_astGetattr (h : Holds s chain cell calls) (name : Cstr) :
    wp (astGetattr name) s
      (fun r t => t = s ∧ r = (latest calls name).bind (·.attrValue)) E := by
  unfold astGetattr
  have hsearch := h.wp_search (E := E) name
  rw [wp_bind] at hsearch
  simp only [wp_bind, wp_state]
  refine wp_mono hsearch (fun head t hw => ?_) fun _ he => he
  refine wp_mono hw ?_ fun _ he => he
  rintro r t ⟨rfl, hr⟩
  rw [h.content, ← hr]
  cases r with
  | none => simp
  | some p =>
    have hp := List.mem_of_find?_eq_some hr.symm
    simp only [wp_bind, wp_deref (h.read _ (bucketOf_lt name) p hp), wp_pure]
    simp [AstAttribute.setting]

/-! ## Setting an attribute -/

section Update

variable {p : Nat} {entry : AstAttribute V}

/-- Rewriting an entry in place leaves the names, the links and the buckets. -/
theorem Holds.reset (h : Holds s chain cell calls) (c : Setting V)
    (hfind : (chain (bucketOf c.attrName)).find? (fun q => (cell q).name = c.attrName) = some p) :
    Holds
      { s with storage := s.storage.modify p fun e =>
          { e with type := c.attrType, value := c.attrValue } }
      chain
      (Function.update cell p { cell p with type := c.attrType, value := c.attrValue })
      (calls ++ [c]) := by
  have hp := List.mem_of_find?_eq_some hfind
  have hname : (cell p).name = c.attrName := by simpa using List.find?_some hfind
  have hread := h.read _ (bucketOf_lt _) p hp
  let cell' := Function.update cell p { cell p with type := c.attrType, value := c.attrValue }
  have hnames : ∀ q, (cell' q).name = (cell q).name := by
    intro q
    by_cases hq : q = p
    · subst hq; simp [cell']
    · simp [cell', hq]
  have hlinks : ∀ q, (cell' q).nextAttr = (cell q).nextAttr := by
    intro q
    by_cases hq : q = p
    · subst hq; simp [cell']
    · simp [cell', hq]
  refine
    { buckets := h.buckets
      chains := fun i head hi => (h.chains i head hi).congr fun q _ => hlinks q
      read := ?_
      hash := fun i hi q hq => by rw [hnames]; exact h.hash i hi q hq
      named := fun i hi q hq => by rw [hnames]; exact h.named i hi q hq
      names := fun i hi => by
        show ((chain i).map fun q => (cell' q).name).Nodup
        simpa only [hnames] using h.names i hi
      count := h.count
      content := ?_ }
  · intro i hi q hq
    by_cases hqp : q = p
    · subst hqp
      simp [hread]
    · simpa [hqp, Ne.symm hqp] using h.read i hi q hq
  · intro name
    show latest (calls ++ [c]) name =
      ((chain (bucketOf name)).find? fun q => (cell' q).name = name).map fun q => (cell' q).setting
    rw [latest_concat]
    simp only [hnames]
    by_cases hc : c.attrName = name
    · subst hc
      simp [hfind, cell', AstAttribute.setting, hname]
    · rw [if_neg hc, h.content]
      cases hf : (chain (bucketOf name)).find? fun q => (cell q).name = name with
      | none => rfl
      | some q =>
        -- another name is found at another address
        have hq : (cell q).name = name := by simpa using List.find?_some hf
        have hqp : q ≠ p := fun e => hc (by rw [← hname, ← e, hq])
        simp [cell', hqp]

/-- A node more in one bucket. -/
theorem nodes_length_push (chain : Nat → List Nat) {i : Nat} (hi : i < astAttrtableCapacity)
    (p : Nat) : (nodes (Function.update chain i (p :: chain i))).length =
      (nodes chain).length + 1 := by
  have hmem : i ∈ List.range' 0 astAttrtableCapacity := by simpa using hi
  obtain ⟨l₁, l₂, hl⟩ := List.append_of_mem hmem
  have hnodup : (l₁ ++ i :: l₂).Nodup := hl ▸ List.nodup_range'
  obtain ⟨-, hright, hleft⟩ := List.nodup_append.mp hnodup
  have hsame : ∀ l : List Nat, i ∉ l →
      l.flatMap (Function.update chain i (p :: chain i)) = l.flatMap chain := by
    intro l hnot
    refine List.flatMap_congr fun j hj => ?_
    have hne : j ≠ i := fun e => hnot (e ▸ hj)
    rw [Function.update_of_ne hne]
  simp only [nodes, nodesFrom, hl, List.flatMap_append, List.flatMap_cons, Function.update_self,
    hsame l₁ fun h => hleft i h i List.mem_cons_self rfl,
    hsame l₂ (List.nodup_cons.mp hright).1, List.length_append, List.length_cons]
  omega

/-- What a chain holds depends on its own entries. -/
theorem find_setting_congr {cell' : Nat → AstAttribute V} (name : Cstr) {l : List Nat}
    (h : ∀ q ∈ l, cell' q = cell q) :
    ((l.find? fun q => (cell' q).name = name).map fun q => (cell' q).setting) =
      (l.find? fun q => (cell q).name = name).map fun q => (cell q).setting := by
  induction l with
  | nil => rfl
  | cons q l ih =>
    rw [List.find?_cons, List.find?_cons, h q List.mem_cons_self]
    by_cases hq : (cell q).name = name
    · simp [hq, h q List.mem_cons_self]
    · simpa [hq] using ih fun r hr => h r (List.mem_cons_of_mem _ hr)

/-- A new entry is put in front of its chain. -/
theorem Holds.insert (h : Holds s chain cell calls) (c : Setting V) (hn : c.attrName.bytes ≠ [])
    (hfind : (chain (bucketOf c.attrName)).find? (fun q => (cell q).name = c.attrName) = none)
    {head : Option Nat} (hhead : s.attrs[bucketOf c.attrName]? = some head) :
    Holds
      { s with
        storage := s.storage ++
          [{ name := c.attrName, type := c.attrType, value := c.attrValue, nextAttr := head }]
        attrs := s.attrs.set (bucketOf c.attrName) (some s.storage.length)
        attrCount := s.attrCount + 1 }
      (Function.update chain (bucketOf c.attrName)
        (s.storage.length :: chain (bucketOf c.attrName)))
      (Function.update cell s.storage.length
        { name := c.attrName, type := c.attrType, value := c.attrValue, nextAttr := head })
      (calls ++ [c]) := by
  have hb := bucketOf_lt c.attrName
  let e : AstAttribute V :=
    { name := c.attrName, type := c.attrType, value := c.attrValue, nextAttr := head }
  let cell' := Function.update cell s.storage.length e
  let chain' := Function.update chain (bucketOf c.attrName)
    (s.storage.length :: chain (bucketOf c.attrName))
  have hnew : cell' s.storage.length = e := Function.update_self ..
  have hold : ∀ i < astAttrtableCapacity, ∀ q ∈ chain i, cell' q = cell q := fun i hi q hq =>
    Function.update_of_ne (Nat.ne_of_lt (h.lt_storage hi hq)) ..
  have hself : chain' (bucketOf c.attrName) =
      s.storage.length :: chain (bucketOf c.attrName) := Function.update_self ..
  have hother : ∀ i, i ≠ bucketOf c.attrName → chain' i = chain i := fun i hi =>
    Function.update_of_ne hi ..
  have hmem : ∀ i, ∀ q ∈ chain' i,
      (q = s.storage.length ∧ i = bucketOf c.attrName) ∨ q ∈ chain i := by
    intro i q hq
    by_cases hi : i = bucketOf c.attrName
    · rw [hi, hself] at hq
      exact (List.mem_cons.mp hq).imp (fun hq => ⟨hq, hi⟩) fun hq => hi ▸ hq
    · exact .inr (hother i hi ▸ hq)
  refine
    { buckets := by simpa using h.buckets
      chains := ?_
      read := ?_
      hash := ?_
      named := ?_
      names := ?_
      count := by rw [nodes_length_push chain hb, h.count]
      content := ?_ }
  · intro i head' hi
    have hlt : i < astAttrtableCapacity := by
      have := (List.getElem?_eq_some_iff.mp hi).1
      simpa [h.buckets] using this
    show Chain (fun q => (cell' q).nextAttr) head' (chain' i)
    by_cases hib : i = bucketOf c.attrName
    · subst hib
      rw [hself]
      obtain ⟨hlen, -⟩ := List.getElem?_eq_some_iff.mp hhead
      obtain rfl : some s.storage.length = head' := by simpa [hlen] using hi
      refine ⟨rfl, ?_⟩
      show Chain _ (cell' s.storage.length).nextAttr _
      rw [hnew]
      exact (h.chains _ _ hhead).congr fun q hq => by rw [hold _ hlt q hq]
    · rw [hother i hib]
      have hi' : s.attrs[i]? = some head' := by simpa [Ne.symm hib] using hi
      exact (h.chains i head' hi').congr fun q hq => by rw [hold i hlt q hq]
  · intro i hi q hq
    show (s.storage ++ [e])[q]? = some (cell' q)
    rcases hmem i q hq with ⟨rfl, -⟩ | hq
    · rw [hnew]; simp
    · rw [hold i hi q hq, List.getElem?_append_left (h.lt_storage hi hq)]
      exact h.read i hi q hq
  · intro i hi q hq
    show bucketOf (cell' q).name = i
    rcases hmem i q hq with ⟨rfl, rfl⟩ | hq
    · rw [hnew]
    · rw [hold i hi q hq]; exact h.hash i hi q hq
  · intro i hi q hq
    show (cell' q).name.bytes ≠ []
    rcases hmem i q hq with ⟨rfl, -⟩ | hq
    · rw [hnew]; exact hn
    · rw [hold i hi q hq]; exact h.named i hi q hq
  · intro i hi
    show ((chain' i).map fun q => (cell' q).name).Nodup
    have hnames : (chain i).map (fun q => (cell' q).name) =
        (chain i).map fun q => (cell q).name :=
      List.map_congr_left fun q hq => by rw [hold i hi q hq]
    by_cases hib : i = bucketOf c.attrName
    · rw [hib, hself, List.map_cons, List.nodup_cons, ← hib, hnames, hnew]
      refine ⟨fun hm => ?_, h.names i hi⟩
      obtain ⟨q, hq, hname⟩ := List.mem_map.mp hm
      exact List.find?_eq_none.mp hfind q (hib ▸ hq) (by simpa using hname)
    · rw [hother i hib, hnames]
      exact h.names i hi
  · intro name
    show latest (calls ++ [c]) name =
      ((chain' (bucketOf name)).find? fun q => (cell' q).name = name).map fun q => (cell' q).setting
    rw [latest_concat]
    by_cases hc : c.attrName = name
    · subst hc
      rw [hself, List.find?_cons, hnew]
      simp [e, hnew, AstAttribute.setting]
    · rw [if_neg hc, h.content, ← find_setting_congr name (hold _ (bucketOf_lt name))]
      by_cases hib : bucketOf name = bucketOf c.attrName
      · rw [hib, hself, List.find?_cons, hnew]
        simp [e, hc]
      · rw [hother _ hib]

end Update

theorem modify_concat {α : Type} (l : List α) (a : α) (f : α → α) :
    (l ++ [a]).modify l.length f = l ++ [f a] := by
  induction l with
  | nil => rfl
  | cons b l ih => simpa using ih

/-- What one call preserves, where the table has room for its name. -/
theorem Holds.wp_exec (h : Holds s chain cell calls) (c : Setting V) (hn : c.attrName.bytes ≠ [])
    (hfit : distinctNames (calls ++ [c]) ≤ astAttrtableCapacity) :
    wp c.exec s (fun _ t => ∃ chain cell, Holds t chain cell (calls ++ [c])) E := by
  unfold Setting.exec astSetattr
  have hsearch := h.wp_search (E := E) c.attrName
  rw [wp_bind] at hsearch
  simp only [wp_bind, wp_state]
  refine wp_mono hsearch (fun head t hw => ?_) fun _ he => he
  refine wp_mono hw ?_ fun _ he => he
  rintro r t ⟨rfl, hr⟩
  cases r with
  | some p =>
    simp only [wp_bind, wp_pure, wp_modify]
    exact ⟨_, _, h.reset c hr.symm⟩
  | none =>
    have hb : bucketOf c.attrName < t.attrs.length := by
      rw [h.buckets]; exact bucketOf_lt _
    have hget : t.attrs[hashString c.attrName astAttrtableCapacityLog2]? =
        some t.attrs[bucketOf c.attrName] := List.getElem?_eq_getElem hb
    have hins := h.insert c hn hr.symm hget
    have hroom : t.attrCount < astAttrtableCapacity := by
      have hcount := hins.count
      rw [hins.nodes_length] at hcount
      simp only at hcount
      omega
    unfold pushAttr
    simp only [wp_bind, wp_state, wp_check, if_pos hroom, wp_attrsGet hget, wp_modify, wp_pure]
    rw [modify_concat]
    exact ⟨_, _, hins⟩

theorem distinctNames_append_le (calls more : List (Setting V)) :
    distinctNames calls ≤ distinctNames (calls ++ more) := by
  refine ((List.nodup_dedup _).subperm fun name hname => ?_).length_le
  rw [List.mem_dedup] at hname ⊢
  rw [List.map_append]
  exact List.mem_append_left _ hname

/-- What a run of calls preserves. -/
theorem Holds.wp_execAll : ∀ (more : List (Setting V)) {s : State V} {chain : Nat → List Nat}
    {cell : Nat → AstAttribute V} {calls : List (Setting V)}, Holds s chain cell calls →
    (∀ c ∈ more, c.attrName.bytes ≠ []) → distinctNames (calls ++ more) ≤ astAttrtableCapacity →
    wp (execAll more) s (fun _ t => ∃ chain cell, Holds t chain cell (calls ++ more)) E
  | [], _, chain, cell, _, h, _, _ => ⟨chain, cell, by simpa using h⟩
  | c :: more, s, _, _, calls, h, hn, hfit => by
    have happ : calls ++ c :: more = (calls ++ [c]) ++ more := by simp
    rw [happ] at hfit ⊢
    unfold execAll
    rw [wp_bind]
    refine wp_mono (h.wp_exec c (hn c List.mem_cons_self)
      (Nat.le_trans (distinctNames_append_le _ more) hfit)) ?_ fun _ he => he
    rintro - t ⟨chain', cell', h'⟩
    exact h'.wp_execAll more (fun d hd => hn d (List.mem_cons_of_mem _ hd)) hfit

/-- A node that has been cleared. -/
theorem Holds.fresh (storage : List (AstAttribute V)) (cell : Nat → AstAttribute V) :
    Holds { storage := storage } (fun _ => []) cell [] where
  buckets := rfl
  chains i head hi := by
    have hnone : none = head := (List.getElem?_eq_some_iff.mp hi).elim fun _ h => by simpa using h
    rw [← hnone]
    rfl
  read _ _ _ hp := nomatch hp
  hash _ _ _ hp := nomatch hp
  named _ _ _ hp := nomatch hp
  names _ _ := List.nodup_nil
  count := by simp [nodes, nodesFrom]
  content _ := rfl

/-! ## Iterating -/

/-- The iterator stands at the first of the nodes that remain: the rest of one chain and the
buckets behind it. -/
def Remains (chain : Nat → List Nat) (cell : Nat → AstAttribute V) (iter : AstAttributeIterator) :
    List Nat → Prop
  | [] => iter.attrAt = none
  | p :: l => iter.attrAt = some p ∧ ∃ rest n, Chain (fun q => (cell q).nextAttr)
      (cell p).nextAttr rest ∧ iter.tableI + 1 + n = astAttrtableCapacity ∧
      l = rest ++ nodesFrom chain (iter.tableI + 1) n

theorem Holds.wp_seekBucket (h : Holds s chain cell calls) : ∀ (n fuel i : Nat),
    i + n = astAttrtableCapacity → n < fuel →
    wp (seekBucket fuel i) s
      (fun iter t => t = s ∧ Remains chain cell iter (nodesFrom chain i n)) E
  | _, 0, _, _, hf => absurd hf (Nat.not_lt_zero _)
  | 0, _ + 1, i, hi, _ => by
    unfold seekBucket
    rw [if_neg (by omega)]
    exact ⟨rfl, rfl⟩
  | n + 1, fuel + 1, i, hi, hf => by
    have hlt : i < s.attrs.length := by rw [h.buckets]; omega
    have hget := List.getElem?_eq_getElem hlt
    have hchain := h.chains i _ hget
    have hnodes : nodesFrom chain i (n + 1) = chain i ++ nodesFrom chain (i + 1) n := by
      simp [nodesFrom, List.range'_succ]
    unfold seekBucket
    rw [if_pos (by omega), wp_bind, wp_attrsGet hget, hnodes]
    cases hhead : s.attrs[i] with
    | none =>
      rw [hhead] at hchain
      rw [hchain.eq_nil]
      exact h.wp_seekBucket n fuel (i + 1) (by omega) (by omega)
    | some p =>
      rw [hhead] at hchain
      obtain ⟨rest, hrest, hnext⟩ := hchain.eq_cons
      rw [hrest]
      exact ⟨rfl, rfl, rest, n, hnext, by simp only; omega, rfl⟩

theorem Holds.wp_astAttriterInit (h : Holds s chain cell calls) :
    wp astAttriterInit s (fun iter t => t = s ∧ Remains chain cell iter (nodes chain)) E :=
  h.wp_seekBucket astAttrtableCapacity _ 0 rfl (Nat.lt_succ_self _)

theorem Holds.wp_astAttriterGetNext (h : Holds s chain cell calls) {iter : AstAttributeIterator}
    {p : Nat} {l : List Nat} (hr : Remains chain cell iter (p :: l))
    (hp : s.storage[p]? = some (cell p)) :
    wp (astAttriterGetNext iter) s (fun iter t => t = s ∧ Remains chain cell iter l) E := by
  obtain ⟨hat, rest, n, hrest, hn, rfl⟩ := hr
  unfold astAttriterGetNext
  simp only [hat]
  rw [wp_bind, wp_deref hp]
  cases hnext : (cell p).nextAttr with
  | none =>
    rw [hnext] at hrest
    rw [hrest.eq_nil]
    exact h.wp_seekBucket n _ _ hn (by omega)
  | some q =>
    rw [hnext] at hrest
    obtain ⟨rest', rfl, hrest'⟩ := hrest.eq_cons
    exact ⟨rfl, rfl, rest', n, hrest', hn, rfl⟩

/-- The loop comes by the nodes that remain, each once, and ends. -/
theorem Holds.wp_iterate (h : Holds s chain cell calls) : ∀ (l : List Nat) (fuel : Nat)
    (iter : AstAttributeIterator), Remains chain cell iter l →
    (∀ p ∈ l, s.storage[p]? = some (cell p)) → l.length < fuel →
    wp (iterate fuel iter) s (fun r t => t = s ∧ r = l.map cell) E
  | _, 0, _, _, _, hf => absurd hf (Nat.not_lt_zero _)
  | [], fuel + 1, iter, hr, _, _ => by
    unfold iterate
    rw [show iter.attrAt = none from hr]
    exact ⟨rfl, rfl⟩
  | p :: l, fuel + 1, iter, hr, hread, hf => by
    have hp := hread p List.mem_cons_self
    unfold iterate
    rw [hr.1]
    simp only [wp_bind]
    rw [wp_deref hp]
    refine wp_mono (h.wp_astAttriterGetNext hr hp) ?_ fun _ he => he
    rintro iter' t ⟨ht, hr'⟩
    rw [ht]
    refine wp_mono (h.wp_iterate l fuel iter' hr'
      (fun q hq => hread q (List.mem_cons_of_mem _ hq)) (by simpa using hf)) ?_ fun _ he => he
    rintro r t ⟨rfl, rfl⟩
    exact ⟨rfl, rfl⟩

theorem Holds.wp_iterateAll (h : Holds s chain cell calls) :
    wp iterateAll s (fun r t => t = s ∧ r = (nodes chain).map cell) E := by
  unfold iterateAll
  simp only [wp_bind, wp_state]
  refine wp_mono h.wp_astAttriterInit ?_ fun _ he => he
  rintro iter t ⟨rfl, hr⟩
  refine h.wp_iterate _ _ iter hr (fun p hp => ?_) (Nat.lt_succ_of_le h.nodes_length_le)
  obtain ⟨i, hi, hpi⟩ := Holds.mem_nodes.mp hp
  exact h.read i hi p hpi

/-- The entries visited are the latest settings, each name once. -/
theorem Holds.mem_settings (h : Holds s chain cell calls) (c : Setting V) :
    c ∈ ((nodes chain).map cell).map AstAttribute.setting ↔
      latest calls c.attrName = some c := by
  rw [List.map_map, h.content, Option.map_eq_some_iff]
  constructor
  · intro hc
    obtain ⟨p, hp, rfl⟩ := List.mem_map.mp hc
    obtain ⟨i, hi, hpi⟩ := Holds.mem_nodes.mp hp
    show ∃ a, (chain (bucketOf (cell p).name)).find? (fun q => (cell q).name = (cell p).name) =
      some a ∧ (cell a).setting = (cell p).setting
    rw [h.hash i hi p hpi]
    refine ⟨p, ?_, rfl⟩
    -- no other entry of the chain has this name
    cases hfind : (chain i).find? fun q => (cell q).name = (cell p).name with
    | none => exact absurd (by simp) (List.find?_eq_none.mp hfind p hpi)
    | some q =>
      have hq := List.mem_of_find?_eq_some hfind
      have hname := List.find?_some hfind
      have := List.inj_on_of_nodup_map (h.names i hi) hq hpi (by simpa using hname)
      rw [this]
  · rintro ⟨p, hp, rfl⟩
    exact List.mem_map.mpr
      ⟨p, Holds.mem_nodes.mpr ⟨_, bucketOf_lt _, List.mem_of_find?_eq_some hp⟩, rfl⟩

/-- After any calls that set at most fifteen names of a cleared node: a name has the value it
was last given, the count is that of the names, and the iterator visits the latest setting of
each name once and nothing else. -/
theorem execAll_latest (storage : List (AstAttribute V)) (calls : List (Setting V))
    (hnamed : ∀ c ∈ calls, c.attrName.bytes ≠ [])
    (hfit : distinctNames calls ≤ astAttrtableCapacity) :
    ∃ t, execAll calls { storage := storage } = .ok ((), t) ∧
      (∀ name, astGetattr name t = .ok ((latest calls name).bind (·.attrValue), t)) ∧
      t.attrCount = distinctNames calls ∧
      ∃ visited, iterateAll t = .ok (visited, t) ∧ (visited.map (·.name)).Nodup ∧
        ∀ c, c ∈ visited.map AstAttribute.setting ↔ latest calls c.attrName = some c := by
  obtain ⟨⟨⟩, t, hrun, chain, cell, h⟩ := wp_returns
    ((Holds.fresh storage fun _ => ⟨⟨[], by simp⟩, .none, none, none⟩).wp_execAll calls hnamed
      (by simpa using hfit))
  refine ⟨t, hrun, fun name => ?_, by rw [h.count, h.nodes_length]; simp, ?_⟩
  · obtain ⟨r, t', hget, rfl, rfl⟩ := wp_returns (h.wp_astGetattr name)
    simpa using hget
  · obtain ⟨visited, t', hit, rfl, rfl⟩ := wp_returns h.wp_iterateAll
    refine ⟨_, hit, ?_, by simpa using h.mem_settings⟩
    rw [List.map_map]
    exact h.nodes_names_nodup

/-- The latest of three calls on two names. -/
theorem execAll_latest_three :
    let n : Cstr := ⟨[110], by decide⟩
    let v : Cstr := ⟨[118], by decide⟩
    let calls : List (Setting Nat) := [⟨n, some 1, .integer⟩, ⟨v, none, .ast⟩, ⟨n, some 2, .string⟩]
    ∃ t, execAll calls {} = .ok ((), t) ∧
      (∀ name, astGetattr name t = .ok ((latest calls name).bind (·.attrValue), t)) ∧
      t.attrCount = distinctNames calls ∧
      ∃ visited, iterateAll t = .ok (visited, t) ∧ (visited.map (·.name)).Nodup ∧
        ∀ c, c ∈ visited.map AstAttribute.setting ↔ latest calls c.attrName = some c :=
  execAll_latest [] _ (by decide) (by decide)

end Dp4c.AttrTable

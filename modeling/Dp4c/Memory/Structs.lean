import Dp4c.Memory.Steps

/-! # Every struct is on one list

A `PageBlock` struct that was ever handed out, to describe the first blocks or by
`get_new_block_struct`, stays a node of exactly one list. The lists end in null, so the loops
over them return, whatever the clients ask for. -/
namespace Dp4c.Memory

open Dp4c.Lib Dp4c.Lib.Prog

variable {s t : State} {g : Ghost} {log : List Nat} {pageSize start memoryAmount : Nat}

/-- The structs that a call hands out. -/
def Op.structs (s : State) : Op → List Nat
  | .push n size => newStructs 3 (.client n) size s
  | .delete _ => []

/-- The states that runs lead to, with the structs handed out until then. -/
inductive Logged (s : State) (first : List Nat) : State → List Nat → Prop
  | start : Logged s first s first
  | call {t u : State} {log : List Nat} {op : Op} (h : Logged s first t log)
      (hrun : op.call t = .ok ((), u)) : Logged s first u (op.structs t ++ log)

/-- Each struct is on exactly one list, and each list ends and visits no node twice. -/
structure OnOneList (s : State) (log : List Nat) : Prop where
  one : ∀ p ∈ log, ∃! h, s.OnList h p
  ends : ∀ h, ∃ l, Chain s.view.next (s.head h) l ∧ l.Nodup

theorem Between.onOneList (h : Between start s g) (hlog : ∀ p ∈ log, g.On p) : OnOneList s log where
  one p hp := by
    obtain ⟨home, hhome⟩ := hlog p hp
    refine ⟨home, h.inv.onList_iff.mpr hhome, fun home' hhome' => ?_⟩
    exact h.inv.lists.apart _ _ p (h.inv.onList_iff.mp hhome') hhome
  ends home := ⟨_, h.inv.lists.chain home, (h.inv.lists.chain home).nodup⟩

/-- What one call keeps. -/
theorem Between.log_call (h : Between start s g) (hlog : ∀ p ∈ log, g.On p) {op : Op}
    (hrun : op.call s = .ok ((), t)) : ∃ g', Between start t g' ∧
    ∀ p ∈ op.structs s ++ log, g'.On p := by
  have hkeep : ∀ {g' : Ghost} {structs : List Nat}, Keeps g g' structs →
      ∀ p ∈ structs ++ log, g'.On p := fun hkeeps p hp =>
    hkeeps p ((List.mem_append.mp hp).symm.imp (hlog p) id)
  cases op with
  | push n size =>
    obtain ⟨g', hg', -, hkeeps⟩ := wp_ok (h.wp_push n size) hrun
    exact ⟨g', hg', hkeep hkeeps⟩
  | delete n =>
    obtain ⟨g', hg', -, hkeeps⟩ := wp_ok (h.wp_delete (E := fun _ => True) n) hrun
    exact ⟨g', hg', hkeep hkeeps⟩

/-- What runs keep. -/
theorem Logged.on (hs : Setup pageSize start memoryAmount)
    (h : Logged (initMemory pageSize start memoryAmount) [start, start + sizeofPageBlock] s log) :
    ∃ g, Between start s g ∧ ∀ p ∈ log, g.On p := by
  induction h with
  | start =>
    refine ⟨_, initMemory_between hs, ?_⟩
    simp only [List.mem_cons, List.not_mem_nil, or_false]
    rintro p (rfl | rfl)
    · exact ⟨.owned .pageblockStorage, List.mem_singleton.mpr rfl⟩
    · exact ⟨.free, List.mem_singleton.mpr rfl⟩
  | call _ hrun ih =>
    obtain ⟨g, hg, hlog⟩ := ih
    exact hg.log_call hlog hrun

/-- The loops of a call do not run dry. -/
theorem Between.call_ends (h : Between start s g) (op : Op) : op.call s ≠ .error .outOfFuel := by
  intro hrun
  cases op with
  | push n size =>
    rcases wp_error (h.wp_push n size) hrun with ⟨he, -⟩ | ⟨he, -⟩ | ⟨he, -⟩ <;> cases he
  | delete n => exact wp_error (h.wp_delete (E := fun _ => False) n) hrun

/-- In every state of every run, each struct handed out so far is on exactly one list, each list
ends in null, and every further call returns or exits. -/
theorem run_listed (hs : Setup pageSize start memoryAmount)
    (h : Logged (initMemory pageSize start memoryAmount) [start, start + sizeofPageBlock] s log) :
    OnOneList s log ∧ ∀ op : Op, op.call s ≠ .error .outOfFuel := by
  obtain ⟨g, hg, hlog⟩ := h.on hs
  exact ⟨hg.onOneList hlog, hg.call_ends⟩

/-- Makes the calls, noting the structs. -/
def callsLogged : List Op → State → List Nat → Option (State × List Nat)
  | [], s, log => some (s, log)
  | op :: ops, s, log =>
    match op.call s with
    | .ok (_, t) => callsLogged ops t (op.structs s ++ log)
    | .error _ => none

theorem logged_of_callsLogged {s₀ : State} {first : List Nat} :
    ∀ {ops : List Op} {s t : State} {log log' : List Nat}, Logged s₀ first s log →
      callsLogged ops s log = some (t, log') → Logged s₀ first t log'
  | [], _, _, _, _, hs, h => by
    obtain ⟨rfl, rfl⟩ := Prod.mk.inj (Option.some.inj h)
    exact hs
  | op :: ops, s, _, _, _, hs, h => by
    unfold callsLogged at h
    split at h
    · rename_i u hrun
      exact logged_of_callsLogged (hs.call hrun) h
    · cases h

/-- Structs that are recycled when pages touch, one of them handed out again. -/
theorem run_listed_recycled : ∃ s log,
    Logged (initMemory 4096 65536 65536) [65536, 65536 + sizeofPageBlock] s log ∧
      log.length = 6 ∧ s.recycledBlockStructs ≠ none ∧ OnOneList s log ∧
      ∀ op : Op, op.call s ≠ .error .outOfFuel := by
  have hrun : (callsLogged [.push 0 1, .push 1 1, .push 1 5000, .push 2 1, .delete 0, .delete 1]
      (initMemory 4096 65536 65536) [65536, 65536 + sizeofPageBlock]).any
      (fun r => r.2.length = 6 ∧ r.1.recycledBlockStructs ≠ none) = true := by decide +kernel
  obtain ⟨⟨s, log⟩, hs, hlen⟩ := Option.any_eq_true _ _ |>.mp hrun
  have h := logged_of_callsLogged .start hs
  obtain ⟨hlisted, hends⟩ := run_listed setup_sixteen_pages h
  obtain ⟨hlen, hrec⟩ := of_decide_eq_true hlen
  exact ⟨s, log, h, hlen, hrec, hlisted, hends⟩

end Dp4c.Memory

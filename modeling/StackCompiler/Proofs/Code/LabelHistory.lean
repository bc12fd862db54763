import Mathlib.Data.List.Infix
import Mathlib.Data.List.Nodup
import StackCompiler.Code.Label

/-!
What a history of issues and resolves says about the labels behind it.

A resolve takes back the nearest issue in front of it that no resolve in between has taken back. An
issue is therefore unmatched as long as nowhere behind it more resolves than issues have succeeded.
The ids of the unmatched issues, in their order, are the pending labels, so what a call answers can
be read off the history before it.
-/
namespace StackCompiler.Labels

inductive Request
  | issue
  | resolve
deriving DecidableEq, Repr

def Request.perform : Request → EStateM Fault Labels UInt16
  | issue => Labels.issue
  | resolve => Labels.resolve

structure Reply where
  request : Request
  answer : Except Fault UInt16

def Reply.issued? : Reply → Option UInt16
  | ⟨.issue, .ok id⟩ => some id
  | _ => none

def Reply.resolves : Reply → Bool
  | ⟨.resolve, .ok _⟩ => true
  | _ => false

def ids (history : List Reply) : List UInt16 := history.filterMap Reply.issued?

/-- Nothing in a history takes back an issue in front of it: up to no point have more resolves than
issues succeeded. -/
def Keeps (later : List Reply) : Prop :=
  ∀ early ∈ later.inits, early.countP Reply.resolves ≤ (ids early).length

instance : DecidablePred Keeps := fun later =>
  inferInstanceAs (Decidable (∀ early ∈ later.inits, early.countP Reply.resolves ≤
    (ids early).length))

/-- The ids of the issues that no resolve took back, the latest one last. -/
def unmatched : List Reply → List UInt16
  | [] => []
  | reply :: later =>
      if Keeps later then reply.issued?.toList ++ unmatched later else unmatched later

structure Past where
  history : List Reply
  labels : Labels

namespace Past

def ask (past : Past) (request : Request) : Past :=
  match request.perform past.labels with
  | .ok id labels => ⟨past.history ++ [⟨request, .ok id⟩], labels⟩
  | .error fault labels => ⟨past.history ++ [⟨request, .error fault⟩], labels⟩

def after (limit : Nat) (requests : List Request) : Past :=
  requests.foldl ask ⟨[], .empty limit⟩

def answer? (past : Past) (request : Request) : Option UInt16 :=
  match request.perform past.labels with
  | .ok id _ => some id
  | .error _ _ => none

/-- The labels are what the history makes of them, and so are the answers that the next call can
get. -/
structure Reflected (limit : Nat) (past : Past) : Prop where
  issued : past.labels.issued = (ids past.history).length
  depth : past.labels.depth = (unmatched past.history).length
  counted : (ids past.history).map UInt16.toNat = List.range (ids past.history).length
  once : (ids past.history).Nodup
  issue : past.answer? .issue =
    if (unmatched past.history).length < limit ∧ (ids past.history).length < UInt16.size
    then some (.ofNat (ids past.history).length) else none
  resolve : past.answer? .resolve = (unmatched past.history).getLast?
  refused : ∀ request, past.answer? request = none → (past.ask request).labels = past.labels

end Past

/-! Histories. -/

/-- How many issues in front of a history its resolves take back. -/
def surplus : List Reply → Nat
  | [] => 0
  | reply :: later => surplus later + reply.resolves.toNat - reply.issued?.toList.length

theorem reply_cases (reply : Reply) :
    (∃ id, reply.issued? = some id ∧ reply.resolves = false) ∨
      (reply.issued? = none ∧ reply.resolves = true) ∨
      (reply.issued? = none ∧ reply.resolves = false) := by
  rcases reply with ⟨_ | _, fault | id⟩
  · exact .inr (.inr ⟨rfl, rfl⟩)
  · exact .inl ⟨id, rfl, rfl⟩
  · exact .inr (.inr ⟨rfl, rfl⟩)
  · exact .inr (.inl ⟨rfl, rfl⟩)

@[simp] theorem ids_nil : ids [] = [] := rfl

theorem ids_cons (reply : Reply) (later : List Reply) :
    ids (reply :: later) = reply.issued?.toList ++ ids later := by
  rw [ids, List.filterMap_cons]
  cases reply.issued? <;> rfl

theorem ids_append (history later : List Reply) :
    ids (history ++ later) = ids history ++ ids later :=
  List.filterMap_append

/-- The resolves of a history take back at most `credit` issues in front of it. -/
theorem surplus_le_iff (later : List Reply) (credit : Nat) :
    surplus later ≤ credit ↔
      ∀ early ∈ later.inits, early.countP Reply.resolves ≤ (ids early).length + credit := by
  induction later generalizing credit with
  | nil => simp [surplus]
  | cons reply later ih =>
      rw [List.inits_cons, List.forall_mem_cons, List.forall_mem_map]
      simp only [surplus, List.countP_cons, ids_cons, List.length_append]
      rcases reply_cases reply with ⟨id, issued, idle⟩ | ⟨silent, resolved⟩
        | ⟨silent, idle⟩
      · have further := ih (credit + 1)
        grind
      · cases credit with
        | zero =>
            -- The first call already takes back an issue that is not there.
            have start := List.mem_inits [] later
            grind [ids_nil]
        | succ credit =>
            have further := ih credit
            grind
      · have further := ih credit
        grind

theorem keeps_iff (later : List Reply) : Keeps later ↔ surplus later = 0 := by
  rw [← Nat.le_zero, surplus_le_iff]
  exact Iff.rfl

theorem unmatched_cons (reply : Reply) (later : List Reply) :
    unmatched (reply :: later) =
      if surplus later = 0 then reply.issued?.toList ++ unmatched later else unmatched later := by
  rw [unmatched]
  simp only [keeps_iff]

/-- A further resolve takes back an issue in front of the history only if none in it is left. -/
theorem surplus_concat (history : List Reply) (reply : Reply) :
    surplus (history ++ [reply]) =
      if reply.resolves ∧ unmatched history =
      [] then surplus history + 1 else surplus history := by
  induction history with
  | nil =>
      rcases reply_cases reply with ⟨id, issued, idle⟩ | ⟨silent, resolved⟩
        | ⟨silent, idle⟩ <;> simp [surplus, unmatched, *]
  | cons first later ih =>
      rw [List.cons_append, surplus, ih, surplus, unmatched_cons]
      rcases reply_cases first with ⟨id, issued, idle⟩ | ⟨silent, resolved⟩
        | ⟨silent, idle⟩ <;> grind

/-- A resolve takes back the latest unmatched issue, and a further issue is unmatched. -/
theorem unmatched_concat (history : List Reply) (reply : Reply) :
    unmatched (history ++ [reply]) =
      if reply.resolves then (unmatched history).dropLast else unmatched history ++
      reply.issued?.toList := by
  induction history with
  | nil =>
      rcases reply_cases reply with ⟨id, issued, idle⟩ | ⟨silent, resolved⟩
        | ⟨silent, idle⟩ <;> simp [surplus, unmatched_cons, unmatched, *]
  | cons first later ih =>
      rw [List.cons_append, unmatched_cons, surplus_concat, ih, unmatched_cons]
      cases resolved : reply.resolves with
      | true =>
          by_cases none : unmatched later = []
          · -- Nothing behind the first call is left, so the resolve takes back the first call if
            -- anything.
            have alone : first.issued?.toList.dropLast = [] := by cases first.issued? <;> rfl
            rw [none]
            simp
            split <;> simp [alone]
          · simp only [none, and_false, ↓reduceIte]
            split
            · exact (List.dropLast_append_of_ne_nil none).symm
            · rfl
      | false =>
          simp only [Bool.false_eq_true, false_and, ↓reduceIte]
          split
          · exact (List.append_assoc _ _ _).symm
          · rfl

/-! Calls. -/

namespace Past

structure Kept (limit : Nat) (past : Past) : Prop where
  limit : past.labels.limit = limit
  issued : past.labels.issued = (ids past.history).length
  pending : past.labels.pending.toList = unmatched past.history
  counted : (ids past.history).map UInt16.toNat = List.range (ids past.history).length

variable {limit : Nat} {past : Past}

theorem kept_empty (limit : Nat) : Kept limit ⟨[], .empty limit⟩ := ⟨rfl, rfl, rfl, rfl⟩

/-- A call that fails adds nothing to the history but its failure. -/
theorem kept_refused (kept : Kept limit past) (request : Request) (fault : Fault) :
    Kept limit ⟨past.history ++ [⟨request, .error fault⟩], past.labels⟩ := by
  have silent : Reply.issued? ⟨request, .error fault⟩ = none := by cases request <;> rfl
  have idle : Reply.resolves ⟨request, .error fault⟩ = false := by cases request <;> rfl
  have same : ids (past.history ++ [⟨request, .error fault⟩]) = ids past.history := by
    simp [ids_append, ids_cons, silent]
  constructor
  · exact kept.limit
  · rw [same]
    exact kept.issued
  · rw [unmatched_concat, silent, idle]
    simpa using kept.pending
  · rw [same]
    exact kept.counted

theorem kept_issued (kept : Kept limit past) (room : past.labels.issued < UInt16.size) :
    Kept limit ⟨past.history ++ [⟨.issue, .ok (.ofNat past.labels.issued)⟩],
      ⟨past.labels.issued + 1, past.labels.pending.push (.ofNat past.labels.issued),
        past.labels.limit⟩⟩ := by
  have more : ids (past.history ++ [⟨.issue, .ok (.ofNat past.labels.issued)⟩]) =
      ids past.history ++ [.ofNat past.labels.issued] := by
    simp [ids_append, ids_cons, Reply.issued?]
  constructor
  · exact kept.limit
  · rw [more, List.length_append, kept.issued]
    rfl
  · rw [unmatched_concat, Array.toList_push, kept.pending]
    rfl
  · have fits : (UInt16.ofNat past.labels.issued).toNat = past.labels.issued :=
      UInt16.toNat_ofNat_of_lt room
    rw [more, List.map_append, kept.counted, List.length_append, List.map_singleton, fits,
      kept.issued, List.length_singleton, List.range_succ]

theorem kept_resolved (kept : Kept limit past) (id : UInt16) :
    Kept limit ⟨past.history ++ [⟨.resolve, .ok id⟩],
      ⟨past.labels.issued, past.labels.pending.pop, past.labels.limit⟩⟩ := by
  have same : ids (past.history ++ [⟨.resolve, .ok id⟩]) = ids past.history := by
    simp [ids_append, ids_cons, Reply.issued?]
  constructor
  · exact kept.limit
  · rw [same]
    exact kept.issued
  · rw [unmatched_concat, Array.toList_pop, kept.pending]
    rfl
  · rw [same]
    exact kept.counted

theorem ask_kept (kept : Kept limit past) (request : Request) : Kept limit (past.ask request) := by
  unfold ask
  cases request with
  | issue =>
      simp only [Request.perform, issue_outcome]
      by_cases deep : past.labels.limit ≤ past.labels.depth
      · simp only [deep, ↓reduceIte]
        exact kept_refused kept _ _
      by_cases wide : UInt16.size ≤ past.labels.issued
      · simp only [deep, wide, ↓reduceIte]
        exact kept_refused kept _ _
      · simp only [deep, wide, ↓reduceIte]
        exact kept_issued kept (Nat.lt_of_not_le wide)
  | resolve =>
      simp only [Request.perform, resolve_outcome]
      cases past.labels.pending.back? with
      | none => exact kept_refused kept _ _
      | some id => exact kept_resolved kept id

theorem after_kept (limit : Nat) (requests : List Request) : Kept limit (after limit requests) := by
  unfold after
  have run (past : Past) (start : Kept limit past) : Kept limit (requests.foldl ask past) := by
    induction requests generalizing past with
    | nil => exact start
    | cons request rest ih => exact ih _ (ask_kept start request)
  exact run _ (kept_empty limit)

theorem answer_issue (kept : Kept limit past) :
    past.answer? .issue =
      if (unmatched past.history).length < limit ∧ (ids past.history).length < UInt16.size
      then some (.ofNat (ids past.history).length) else none := by
  have depth : past.labels.depth = (unmatched past.history).length := by
    rw [← kept.pending]
    rfl
  simp only [answer?, Request.perform, issue_outcome, kept.limit, kept.issued, depth]
  grind

theorem answer_resolve (kept : Kept limit past) :
    past.answer? .resolve = (unmatched past.history).getLast? := by
  rw [← kept.pending, Array.getLast?_toList, answer?, Request.perform, resolve_outcome]
  cases past.labels.pending.back? <;> rfl

theorem ask_refused (past : Past) (request : Request) (refused : past.answer? request = none) :
    (past.ask request).labels = past.labels := by
  cases request with
  | issue =>
      simp only [answer?, ask, Request.perform, issue_outcome] at refused ⊢
      grind
  | resolve =>
      simp only [answer?, ask, Request.perform, resolve_outcome] at refused ⊢
      grind

/-- Whatever fresh labels are asked, and in whatever order, the labels and the answer to a further
call are what the history makes of them. -/
theorem after_reflected (limit : Nat) (requests : List Request) :
    Reflected limit (after limit requests) := by
  have kept := after_kept limit requests
  constructor
  · exact kept.issued
  · rw [← kept.pending]
    rfl
  · exact kept.counted
  · have distinct : ((ids (after limit requests).history).map UInt16.toNat).Nodup := by
      rw [kept.counted]
      exact List.nodup_range
    exact List.Nodup.of_map _ distinct
  · exact answer_issue kept
  · exact answer_resolve kept
  · exact ask_refused _

end Past

end StackCompiler.Labels

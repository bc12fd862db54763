import StackCompiler.Proofs.Code.LabelTable
import StackCompiler.Proofs.Lowering.Markers

/-!
The shape of generated code, whatever tree it was generated from.

Every instruction has its operands, so chunks can be taken apart again; jumps and labels come from
the markers of conditionals alone, and the labels of a body have different ids.
-/
namespace StackCompiler

def instructionsOf (code : List Written) : List Instruction := code.map Written.instruction

theorem instructionsOf_append (code more : List Written) :
    instructionsOf (code ++ more) = instructionsOf code ++ instructionsOf more :=
  List.map_append

theorem Chunk.of_bytes (code : List Written) :
    (Chunk.of code).bytes.toList = (instructionsOf code).flatMap Instruction.encode := by
  simp [Chunk.of, instructionsOf, List.flatMap_map]

def Formed (code : List Written) : Prop := ∀ w ∈ code, w.instruction.Formed

theorem formed_append {code more : List Written} :
    Formed (code ++ more) ↔ Formed code ∧ Formed more :=
  List.forall_mem_append

def sizeOfCode (code : List Written) : Nat := codeSize (instructionsOf code)

theorem sizeOfCode_append (code more : List Written) :
    sizeOfCode (code ++ more) = sizeOfCode code + sizeOfCode more := by
  rw [sizeOfCode, instructionsOf_append, codeSize_append]
  rfl

theorem instructionsOf_formed {code : List Written} (formed : Formed code) :
    ∀ i ∈ instructionsOf code, i.Formed := by
  rintro _ member
  obtain ⟨w, inside, rfl⟩ := List.mem_map.mp member
  exact formed w inside

theorem Chunk.of_size {code : List Written} (formed : Formed code) :
    (Chunk.of code).size = sizeOfCode code := by
  rw [size, ← Array.length_toList, of_bytes, length_encoded _ (instructionsOf_formed formed)]
  rfl

/-- An instruction with its operands that is neither a jump nor a label. -/
def Written.Plain (w : Written) : Prop :=
  w.instruction.Formed ∧ w.instruction.opcode ≠ .goto ∧ w.instruction.opcode ≠ .label

def Opcode.isMarker : Opcode → Bool
  | goto | label | pushStackPointer | popStackPointer => true
  | _ => false

def Written.Computes (w : Written) : Prop :=
  w.instruction.Formed ∧ w.instruction.opcode.isMarker = false

theorem Written.computes_plain {w : Written} (computes : w.Computes) : w.Plain := by
  rcases w with ⟨line, opcode, operands⟩
  rcases computes with ⟨formed, marker⟩
  refine ⟨formed, ?_, ?_⟩
  · rintro rfl
    cases marker
  · rintro rfl
    cases marker

theorem operator_computes {line : Nat} {opcode : Opcode} (operator : opcode.isOperator = true) :
    Written.Computes ⟨line, ⟨opcode, []⟩⟩ := by
  cases opcode <;> first | exact ⟨rfl, rfl⟩ | cases operator

/-! A property of all instructions of code, by what the code is chosen from. -/

namespace Lowering

section
variable {P : Written → Prop} {line : Nat}

theorem forall_chosen {answer : Except Fault Opcode}
    (own : ∀ opcode, answer = .ok opcode → P ⟨line, ⟨opcode, []⟩⟩) :
    ∀ w ∈ chosen line answer, P w := by
  cases answer with
  | error fault => exact List.forall_mem_nil _
  | ok opcode => exact List.forall_mem_singleton.mpr (own opcode rfl)

variable {answer : Except Fault (Ty × VarId)}

theorem forall_loaded
    (load : ∀ ty id, answer = .ok (ty, id) → P ⟨line, ⟨.load ty.kind, [.ofNat id.index]⟩⟩) :
    ∀ w ∈ loaded line answer, P w := by
  cases answer with
  | error fault => exact List.forall_mem_nil _
  | ok found => exact List.forall_mem_singleton.mpr (load found.1 found.2 rfl)

theorem forall_stored (keep : Bool)
    (store : ∀ ty id, answer = .ok (ty, id) → P ⟨line, ⟨.store ty.kind, [.ofNat id.index]⟩⟩)
    (load : ∀ ty id, answer = .ok (ty, id) → P ⟨line, ⟨.load ty.kind, [.ofNat id.index]⟩⟩) :
    ∀ w ∈ stored line keep answer, P w := by
  cases answer with
  | error fault => exact List.forall_mem_nil _
  | ok found =>
      rw [stored, List.forall_mem_append]
      constructor
      · exact List.forall_mem_singleton.mpr (store found.1 found.2 rfl)
      · cases keep with
        | false => exact List.forall_mem_nil _
        | true => exact List.forall_mem_singleton.mpr (load found.1 found.2 rfl)

theorem forall_changed {opcode : Opcode} (change : P ⟨line, ⟨opcode, []⟩⟩)
    (store : ∀ ty id, answer = .ok (ty, id) → P ⟨line, ⟨.store .int, [.ofNat id.index]⟩⟩)
    (load : ∀ ty id, answer = .ok (ty, id) → P ⟨line, ⟨.load .int, [.ofNat id.index]⟩⟩) :
    ∀ w ∈ changed line opcode answer, P w := by
  cases answer with
  | error fault => exact List.forall_mem_nil _
  | ok found =>
      simp only [changed, List.forall_mem_append]
      constructor
      · constructor
        · exact List.forall_mem_singleton.mpr change
        · exact List.forall_mem_singleton.mpr (store found.1 found.2 rfl)
      · exact List.forall_mem_singleton.mpr (load found.1 found.2 rfl)

end

end Lowering

open Lowering

namespace Expr

/-- What a node adds to the code itself, its parts apart. -/
def own (base : Nat) (keep : Bool) (e : Expr) : List Written :=
  match e with
  | bool .. | int .. | double .. | name .. => e.code base keep
  | binary note op left _ => chosen note.line (binaryOpcode op left e)
  | unary _ op operand => unaryCode e op operand
  | assign note op target value =>
      (if op.isCompound then loaded note.line target.variableTarget else []) ++
        operatorCode value.line note.line op value ++ stored target.line keep target.variableTarget
  | call note _ _ => written note.line .invoke
  | cast note kind _ => written note.line (.convert kind)

theorem forall_codeOfArgs {P : Written → Prop} (args : List Expr)
    (each : ∀ arg ∈ args, ∀ base keep, ∀ w ∈ arg.code base keep, P w) (base : Nat) :
    ∀ w ∈ codeOfArgs base args, P w := by
  induction args generalizing base with
  | nil => exact List.forall_mem_nil _
  | cons arg rest ih =>
      rcases List.forall_mem_cons.mp each with ⟨first, others⟩
      rw [codeOfArgs, List.forall_mem_append]
      exact ⟨first base true, ih others _⟩

theorem forall_code {P : Written → Prop} (e : Expr)
    (each : ∀ node ∈ e.nodes, ∀ base keep, ∀ w ∈ node.own base keep, P w) (base : Nat)
    (keep : Bool) :
    ∀ w ∈ e.code base keep, P w := by
  induction e generalizing base keep with
  | bool | int | double | name => exact each _ (self_mem_nodes _) base keep
  | binary note op left right first second =>
      rcases forall_nodes_binary.mp each with ⟨⟨lefts, rights⟩, added⟩
      simp only [code, List.forall_mem_append]
      exact ⟨⟨first lefts _ _, second rights _ _⟩, added base keep⟩
  | unary note op operand inner =>
      rcases forall_nodes_unary.mp each with ⟨operands, added⟩
      simp only [code, List.forall_mem_append]
      exact ⟨inner operands _ _, added base keep⟩
  | assign note op target value first second =>
      rcases forall_nodes_assign.mp each with ⟨⟨values, _⟩, added⟩
      have parts := added base keep
      simp only [own, List.forall_mem_append] at parts
      rcases parts with ⟨⟨load, operator⟩, store⟩
      simp only [code, List.forall_mem_append]
      exact ⟨⟨⟨load, second values _ _⟩, operator⟩, store⟩
  | call note callee args target inner =>
      rcases forall_nodes_call.mp each with ⟨⟨passed, called⟩, added⟩
      have arguments : ∀ w ∈ codeOfArgs base args, P w :=
        forall_codeOfArgs args (fun arg member => inner arg member (passed arg member)) base
      simp only [code, List.forall_mem_append]
      exact ⟨⟨arguments, target called _ _⟩, added base keep⟩
  | cast note kind operand inner =>
      rcases forall_nodes_cast.mp each with ⟨operands, added⟩
      simp only [code, List.forall_mem_append]
      exact ⟨inner operands _ _, added base keep⟩

theorem own_computes (e : Expr) (base : Nat) (keep : Bool) :
    ∀ w ∈ e.own base keep, w.Computes := by
  cases e with
  | bool | int | double => exact List.forall_mem_singleton.mpr ⟨rfl, rfl⟩
  | name note identifier binding =>
      rcases binding with _ | id | id
      · exact List.forall_mem_nil _
      · exact forall_loaded fun _ _ _ => ⟨rfl, rfl⟩
      · exact List.forall_mem_singleton.mpr ⟨rfl, rfl⟩
  | binary note op left right =>
      apply forall_chosen
      exact fun opcode choice => operator_computes (binary_operator choice)
  | unary note op operand =>
      cases op with
      | negate =>
          apply forall_chosen
          exact fun opcode choice => operator_computes (negate_operator choice)
      | not => exact List.forall_mem_singleton.mpr ⟨rfl, rfl⟩
      | increment | decrement =>
          exact forall_changed ⟨rfl, rfl⟩ (fun _ _ _ => ⟨rfl, rfl⟩) fun _ _ _ =>
            ⟨rfl, rfl⟩
  | assign note op target value =>
      simp only [own, List.forall_mem_append]
      constructor
      · constructor
        · split
          · exact forall_loaded fun _ _ _ => ⟨rfl, rfl⟩
          · exact List.forall_mem_nil _
        · cases op with
          | plain => exact List.forall_mem_nil _
          | compound op =>
              apply forall_chosen
              exact fun opcode choice => operator_computes (arith_operator choice)
      · exact forall_stored keep (fun _ _ _ => ⟨rfl, rfl⟩) fun _ _ _ => ⟨rfl, rfl⟩
  | call | cast => exact List.forall_mem_singleton.mpr ⟨rfl, rfl⟩

theorem code_computes (e : Expr) (base : Nat) (keep : Bool) :
    ∀ w ∈ e.code base keep, w.Computes :=
  e.forall_code (fun node _ => node.own_computes) base keep

theorem code_plain (e : Expr) (base : Nat) (keep : Bool) : ∀ w ∈ e.code base keep, w.Plain :=
  fun w member => Written.computes_plain (e.code_computes base keep w member)

end Expr

theorem Param.code_computes (line : Nat) (param : Param) :
    ∀ w ∈ param.code line, w.Computes := by
  unfold code
  cases param.id with
  | none => exact List.forall_mem_nil _
  | some id => exact List.forall_mem_singleton.mpr ⟨rfl, rfl⟩

theorem Param.code_plain (line : Nat) (param : Param) : ∀ w ∈ param.code line, w.Plain :=
  fun w member => Written.computes_plain (param.code_computes line w member)

theorem formed_of_plain {code : List Written} (plain : ∀ w ∈ code, w.Plain) : Formed code :=
  fun w member => (plain w member).1

def landed (code : List Written) : List UInt16 := (instructionsOf code).filterMap Instruction.label?

theorem landed_append (code more : List Written) :
    landed (code ++ more) = landed code ++ landed more := by
  rw [landed, instructionsOf_append, List.filterMap_append]
  rfl

theorem landed_of_plain {code : List Written} (plain : ∀ w ∈ code, w.Plain) :
    landed code = [] := by
  refine List.filterMap_eq_nil_iff.mpr fun i member => ?_
  obtain ⟨w, inside, rfl⟩ := List.mem_map.mp member
  obtain ⟨_, _, apart⟩ := plain w inside
  unfold Instruction.label?
  split
  · rename_i same
    rw [same] at apart
    exact absurd rfl apart
  · rfl

namespace Stmt

theorem expr_computes (line : Nat) (value : Expr) (base : Nat) (labels : Labels) :
    ∀ w ∈ (expr line value).code base labels, w.Computes := by
  rw [code, List.forall_mem_append]
  constructor
  · exact value.code_computes _ _
  · split
    · exact List.forall_mem_nil _
    · exact List.forall_mem_singleton.mpr ⟨rfl, rfl⟩

theorem declare_computes (line : Nat) (decl : Declaration) (base : Nat) (labels : Labels) :
    ∀ w ∈ (declare line decl).code base labels, w.Computes := by
  rcases decl with ⟨name, ty, _ | init, _ | id⟩
  · exact List.forall_mem_nil _
  · exact List.forall_mem_nil _
  · exact init.code_computes _ _
  · rw [code, List.forall_mem_append]
    exact ⟨init.code_computes _ _, List.forall_mem_singleton.mpr ⟨rfl, rfl⟩⟩

theorem code_plain {s : Stmt} (base : Nat) (labels : Labels) (outside : s.enters = false)
    (inside : s.leaves = false) : ∀ w ∈ s.code base labels, w.Plain := by
  cases s with
  | expr line value =>
      exact fun w member => Written.computes_plain (expr_computes line value base labels w member)
  | declare line decl =>
      exact fun w member => Written.computes_plain (declare_computes line decl base labels w member)
  | beginBlock line | endBlock line => exact List.forall_mem_singleton.mpr ⟨rfl, nofun, nofun⟩
  | enterIf line condition => cases outside
  | leaveIf line => cases inside

theorem code_formed (s : Stmt) (base : Nat) (labels : Labels) : Formed (s.code base labels) := by
  cases s with
  | enterIf line condition =>
      refine formed_append.mpr ⟨formed_of_plain (condition.code_plain _ _), ?_⟩
      exact List.forall_mem_singleton.mpr rfl
  | leaveIf line =>
      unfold code
      cases labels.pending.back? with
      | none => exact List.forall_mem_nil _
      | some id => exact List.forall_mem_singleton.mpr rfl
  | expr | declare | beginBlock | endBlock => exact formed_of_plain (code_plain base labels rfl rfl)

/-- A statement that leaves a conditional lands at the innermost pending label, any other
nowhere. -/
theorem landed_code (s : Stmt) (base : Nat) (labels : Labels) :
    landed (s.code base labels) = if s.leaves then labels.pending.back?.toList else [] := by
  cases s with
  | enterIf line condition =>
      show landed (condition.code base true ++ indexed line .goto labels.issued) = []
      rw [landed_append, landed_of_plain (condition.code_plain _ _)]
      rfl
  | leaveIf line =>
      show landed (labels.pending.back?.elim [] _) = labels.pending.back?.toList
      cases labels.pending.back? <;> rfl
  | expr | declare | beginBlock | endBlock => exact landed_of_plain (code_plain base labels rfl rfl)

end Stmt

theorem Lowering.codeOfStmts_formed (base : Nat) (labels : Labels) (stmts : List Stmt) :
    Formed (codeOfStmts base labels stmts) := by
  induction stmts generalizing base labels with
  | nil => exact List.forall_mem_nil _
  | cons s rest ih => exact formed_append.mpr ⟨s.code_formed base labels, ih _ _⟩

/-- The pending labels differ and were all issued. -/
structure Labels.Distinct (labels : Labels) : Prop where
  nodup : labels.pending.toList.Nodup
  issued : ∀ id ∈ labels.pending.toList, id.toNat < labels.issued

theorem Labels.distinct_idle {labels : Labels} (idle : labels.depth = 0) : labels.Distinct := by
  have empty : labels.pending = #[] := Array.eq_empty_of_size_eq_zero idle
  constructor <;> simp [empty]

theorem Labels.Distinct.top_once {labels : Labels} {others : Array UInt16} {top : UInt16}
    (distinct : labels.Distinct)
    (parts : labels.pending = others.push top) : top ∉ others.toList := by
  have different := distinct.nodup
  rw [parts, Array.toList_push] at different
  exact fun again =>
    (List.nodup_append.mp different).2.2 top again top (List.mem_singleton.mpr rfl) rfl

theorem Labels.allows_leave {labels : Labels} {line : Nat}
    (allowed : labels.Allows (.leaveIf line)) :
    ∃ others top, labels.pending = others.push top ∧
      (labels.after (.leaveIf line)).pending = others := by
  cases last : labels.pending.back? with
  | none =>
      have filled : 0 < labels.pending.size := allowed
      simp [Array.back?_eq_none_iff.mp last] at filled
  | some top =>
      rcases Array.back?_eq_some_iff.mp last with ⟨others, parts⟩
      exact ⟨others, top, parts, by simp [after, parts]⟩

theorem Labels.distinct_after {labels : Labels} {s : Stmt} (distinct : labels.Distinct)
    (allowed : labels.Allows s) : (labels.after s).Distinct := by
  obtain ⟨nodup, issued⟩ := distinct
  cases s with
  | enterIf line condition =>
      have small : (UInt16.ofNat labels.issued).toNat = labels.issued :=
        UInt16.toNat_ofNat_of_lt' allowed.2
      constructor
      · simp only [after, Array.toList_push, List.nodup_append, List.mem_singleton]
        refine ⟨nodup, by simp, ?_⟩
        rintro id member _ rfl rfl
        exact absurd (issued _ member) (by rw [small]; exact Nat.lt_irrefl _)
      · simp only [after, Array.toList_push, List.mem_append, List.mem_singleton]
        rintro id (member | rfl)
        · exact Nat.lt_succ_of_lt (issued id member)
        · rw [small]
          exact Nat.lt_succ_self _
  | leaveIf line =>
      constructor
      · simpa [after] using nodup.sublist (List.dropLast_sublist _)
      · intro id member
        exact issued id ((List.dropLast_sublist _).subset (by simpa [after] using member))
  | expr | declare | beginBlock | endBlock => exact ⟨nodup, issued⟩

/-- A body lands at each of its labels once: those pending before it and those it issues itself. -/
theorem Lowering.landed_distinct (base : Nat) {labels : Labels} (stmts : List Stmt)
    (distinct : labels.Distinct) (allowed : labels.AllowsAll stmts) :
    (landed (codeOfStmts base labels stmts)).Nodup ∧
      ∀ id ∈ landed (codeOfStmts base labels stmts),
        id ∈ labels.pending.toList ∨ labels.issued ≤ id.toNat := by
  induction stmts generalizing base labels with
  | nil => exact ⟨List.nodup_nil, List.forall_mem_nil _⟩
  | cons s rest ih =>
      obtain ⟨nodup, known⟩ :=
        ih (base + s.constants.length) (Labels.distinct_after distinct allowed.1) allowed.2
      rw [codeOfStmts, landed_append, s.landed_code]
      cases s with
      | enterIf line condition =>
          refine ⟨nodup, fun id member => ?_⟩
          rcases known id member with pending | later
          -- The id just issued is new: it does not wrap because the marker was allowed.
          · have small : (UInt16.ofNat labels.issued).toNat = labels.issued :=
              UInt16.toNat_ofNat_of_lt' allowed.1.2
            simp only [Labels.after, Array.toList_push, List.mem_append, List.mem_singleton]
              at pending
            rcases pending with inside | rfl
            · exact Or.inl inside
            · exact Or.inr (Nat.le_of_eq small.symm)
          · exact Or.inr (Nat.le_of_succ_le later)
      | leaveIf line =>
          rcases Labels.allows_leave allowed.1 with ⟨others, top, parts, below⟩
          have once := distinct.top_once parts
          have here :
              (if (Stmt.leaveIf line).leaves then labels.pending.back?.toList else []) = [top] := by
            simp [parts, Stmt.leaves]
          rw [below] at known
          rw [here, List.singleton_append, parts, Array.toList_push]
          simp only [List.mem_append, List.mem_singleton]
          constructor
          -- The innermost pending id leaves the stack here, so the code behind does not land at it
          -- again.
          · refine List.nodup_cons.mpr ⟨fun again => ?_, nodup⟩
            rcases known top again with inside | later
            · exact once inside
            · exact absurd (distinct.issued top (by simp [parts])) (Nat.not_lt.mpr later)
          · intro id member
            rcases List.mem_cons.mp member with rfl | behind
            · exact Or.inl (Or.inr rfl)
            · exact (known id behind).imp Or.inl fun later => later
      | expr | declare | beginBlock | endBlock => exact ⟨nodup, known⟩

end StackCompiler

import StackCompiler.Proofs.Walk.Journal

/-!
The places of a walk.

The nodes that the hooks leave are put together into a tree on the way out of the recursion. That
this is the tree in which each of them was put in its place, one call after the other, is a fact
about the dialogue: whatever is answered, the statements as they would be left now are those before
the call with the answer in place of the node that was given. `Focus` says what a place is: a way
from the root such that a change at its end changes what is around it as expected.
-/
namespace StackCompiler

variable {σ ε α β : Type}

theorem modify_behind {f : α → α} (before : List α) (member : α) (after : List α) :
    (before ++ member :: after).modify before.length f = before ++ f member :: after := by
  induction before with
  | nil => rfl
  | cons first rest ih => exact congrArg (first :: ·) ih

/-- A change at the end of the way is a change of what is put in. -/
def Focus (index : Nat) (path : List Nat) (whole : Expr → List Stmt) : Prop :=
  ∀ f e, (whole e).modify index (Stmt.modifyRoot (Expr.modifyAt f path)) = whole (f e)

theorem Expr.modifyAt_concat (f : Expr → Expr) (path : List Nat) (index : Nat) :
    modifyAt f (path ++ [index]) = modifyAt (modifyOperand f index) path := by
  induction path with
  | nil => rfl
  | cons first rest ih =>
      funext e
      rw [List.cons_append, modifyAt, modifyAt, ih]

section
variable {index : Nat} {path : List Nat} {whole : Expr → List Stmt}

theorem Focus.operand (focus : Focus index path whole) {place : Nat} {around : Expr → Expr}
    (modifies : ∀ f operand, (around operand).modifyOperand f place = around (f operand)) :
    Focus index (path ++ [place]) fun operand => whole (around operand) := by
  intro f operand
  rw [Expr.modifyAt_concat, focus, modifies]

theorem focus_root {before after : List Stmt} {around : Expr → Stmt}
    (modifies : ∀ f root, (around root).modifyRoot f = around (f root)) :
    Focus before.length [] fun root => before ++ around root :: after := by
  intro f root
  rw [modify_behind, modifies]
  rfl

end

namespace Dialogue

/-- The dialogue stands at the cursor in the statements. Whatever is answered, they change there and
nowhere else, and where it ends they are what is around the node that it leaves. -/
def InPlace (whole : α → List Stmt) (post : α → Cursor → Prop) (d : Dialogue α)
    (c : Cursor) (stmts : List Stmt) :
    Prop :=
  match d with
  | ended node => stmts = whole node ∧ post node c
  | spent node => stmts = whole node
  | ask call resume abandon =>
      c.put stmts call call.node = stmts ∧
        ∀ left, c.put stmts call left = whole (abandon left) ∧
        (resume left).InPlace whole post (c.next call) (c.put stmts call left)

section
variable {d : Dialogue α} {c : Cursor} {stmts : List Stmt} {mid : α → Cursor → Prop}

theorem InPlace.follow {whole : β → List Stmt} {post : β → Cursor → Prop}
    {early : α → β} {late : α → Dialogue β}
    (first : d.InPlace (fun node => whole (early node)) mid c stmts)
    (rest : ∀ node c, mid node c → (late node).InPlace whole post c (whole (early node))) :
    (d.follow early late).InPlace whole post c stmts := by
  induction d generalizing c stmts with
  | ended node =>
      rcases first with ⟨rfl, reached⟩
      exact rest node c reached
  | spent node => exact first
  | ask call resume abandon ih =>
      exact ⟨first.1, fun left => ⟨(first.2 left).1, ih left (first.2 left).2⟩⟩

theorem InPlace.andThen {whole : α → List Stmt} {post : α → Cursor → Prop}
    {next : α → Dialogue α} (first : d.InPlace whole mid c stmts)
    (rest : ∀ node c, mid node c → (next node).InPlace whole post c (whole node)) :
    (d.andThen next).InPlace whole post c stmts :=
  InPlace.follow first rest

theorem InPlace.map (whole : β → List Stmt) (f : α → β) {post : β → Cursor → Prop}
    (inner : d.InPlace (fun node => whole (f node)) mid c stmts)
    (reaches : ∀ node c, mid node c → post (f node) c) :
    (d.map f).InPlace whole post c stmts :=
  inner.follow fun node c reached => ⟨rfl, reaches node c reached⟩

theorem inPlace_asking (call : Call) (whole : call.Node → List Stmt)
    {post : call.Node → Cursor → Prop}
    (puts : ∀ left, c.put (whole call.node) call left = whole left)
    (reaches : ∀ left, post left (c.next call)) :
    (asking call).InPlace whole post c (whole call.node) :=
  ⟨puts call.node, fun left => ⟨puts left, puts left, reaches left⟩⟩

theorem inPlace_each {f : α → Dialogue α} (whole : List α → List Stmt)
    (place : Nat → Cursor)
    (one : ∀ before member after, (f member).InPlace (fun node => whole (before ++ node :: after))
      (fun _ c => c = place (before.length + 1)) (place before.length)
        (whole (before ++ member :: after)))
    (before members : List α) :
    (each f members).InPlace (fun nodes => whole (before ++ nodes))
      (fun nodes c => c = place (before.length + nodes.length)) (place before.length)
      (whole (before ++ members)) := by
  induction members generalizing before with
  | nil => exact ⟨rfl, rfl⟩
  | cons member rest ih =>
      have first : (f member).InPlace (fun node => whole (before ++ (node :: rest)))
          (fun _ c => c = place (before.length + 1)) (place before.length)
          (whole (before ++ member :: rest)) :=
        one before member rest
      refine InPlace.follow first ?_
      rintro node c rfl
      have others := ih (before ++ [node])
      simp only [List.append_assoc, List.singleton_append, List.length_append,
        List.length_singleton] at others
      apply others.map (fun nodes => whole (before ++ nodes)) (node :: ·)
      rintro nodes c rfl
      rw [List.length_cons, Nat.add_assoc, Nat.add_comm 1]

end

end Dialogue

namespace Expr
open Dialogue (InPlace)

section
variable {visit : Expr → Dialogue Expr} {index : Nat} {counts : List Nat} {whole : Expr → List Stmt}
variable (visits : ∀ e c whole, Focus c.index c.counts.reverse whole →
  (visit e).InPlace whole (fun _ left => left = ⟨c.index, Cursor.count c.counts⟩) c (whole e))
include visits

theorem inPlace_operand (focus : Focus index counts.reverse whole) {place : Nat}
    {around : Expr → Expr} (modifies : ∀ f operand, (around operand).modifyOperand f place =
      around (f operand)) (operand : Expr) :
    (visit operand).InPlace (fun node => whole (around node))
      (fun _ left => left = ⟨index, (place + 1) :: counts⟩)
      ⟨index, place :: counts⟩ (whole (around operand)) := by
  apply visits operand ⟨index, place :: counts⟩
  rw [List.reverse_cons]
  exact focus.operand modifies

theorem inPlace_first (focus : Focus index counts.reverse whole) (e : Expr) :
    (e.askFirst visit).InPlace whole
      (fun node left => ∃ count, left = ⟨index, count :: counts⟩ ∧
        (node.isPaired = true → count = 1))
      ⟨index, 0 :: counts⟩ (whole e) := by
  have only {operand : Expr} {around : Expr → Expr}
      (modifies : ∀ f operand, (around operand).modifyOperand f 0 = around (f operand)) :
      ((visit operand).map around).InPlace whole
        (fun node left => ∃ count, left = ⟨index, count :: counts⟩ ∧
          (node.isPaired = true → count = 1))
        ⟨index, 0 :: counts⟩ (whole (around operand)) :=
    (inPlace_operand visits focus modifies operand).map whole around fun _ left reached =>
    ⟨1, reached, fun _ => rfl⟩
  cases e with
  | bool | int | double | name => exact ⟨rfl, 0, rfl, fun paired => by cases paired⟩
  | binary note op left right => exact only fun _ _ => rfl
  | assign note op target value => exact only fun _ _ => rfl
  | unary note op operand => exact only fun _ _ => rfl
  | cast note kind operand => exact only fun _ _ => rfl
  | call note callee args =>
      have passed : (Dialogue.each visit args).InPlace (fun nodes => whole (call note callee nodes))
          (fun nodes left => left = ⟨index, nodes.length :: counts⟩) ⟨index, 0 :: counts⟩
          (whole (call note callee args)) := by
        have one (before : List Expr) (member : Expr) (after : List Expr) :
            (visit member).InPlace (fun node => whole (call note callee (before ++ node :: after)))
              (fun _ left => left = ⟨index, (before.length + 1) :: counts⟩)
              ⟨index, before.length :: counts⟩
              (whole (call note callee (before ++ member :: after))) := by
          apply inPlace_operand visits focus
          intro f operand
          have inside : before.length ≠ (before ++ operand :: after).length := by
            rw [List.length_append, List.length_cons]
            omega
          rw [modifyOperand, if_neg inside, modify_behind]
        have each := Dialogue.inPlace_each (fun nodes => whole (call note callee nodes))
          (fun count => ⟨index, count :: counts⟩) one [] args
        simpa only [List.nil_append, List.length_nil, Nat.zero_add] using each
      apply passed.follow
      rintro args _ rfl
      have behind : ∀ f operand, (call note operand args).modifyOperand f args.length =
        call note (f operand) args := by
        intro f operand
        rw [modifyOperand, if_pos rfl]
      apply (inPlace_operand visits focus behind callee).map whole (call note · args)
      exact fun _ left reached => ⟨args.length + 1, reached, fun paired => by cases paired⟩

theorem inPlace_second (focus : Focus index counts.reverse whole) {e : Expr} :
    (e.askSecond visit).InPlace whole (fun _ left => ∃ count, left = ⟨index, count :: counts⟩)
      ⟨index, 1 :: counts⟩ (whole e) := by
  have only {operand : Expr} {around : Expr → Expr}
      (modifies : ∀ f operand, (around operand).modifyOperand f 1 = around (f operand)) :
      ((visit operand).map around).InPlace whole (fun _ left => ∃ count, left =
        ⟨index, count :: counts⟩) ⟨index, 1 :: counts⟩ (whole (around operand)) :=
    (inPlace_operand visits focus modifies operand).map whole around fun _ left reached =>
    ⟨2, reached⟩
  cases e with
  | binary note op left right => exact only fun _ _ => rfl
  | assign note op target value => exact only fun _ _ => rfl
  | bool | int | double | name | unary | call | cast => exact ⟨rfl, 1, rfl⟩

end

theorem dialogue_inPlace (depth : Nat) (e : Expr) (c : Cursor) (whole : Expr → List Stmt)
    (focus : Focus c.index c.counts.reverse whole) :
    (e.dialogue depth).InPlace whole (fun _ left => left =
      ⟨c.index, Cursor.count c.counts⟩) c (whole e) := by
  induction depth generalizing e c whole with
  | zero => exact rfl
  | succ depth ih =>
      rcases c with ⟨index, counts⟩
      have entering :
          (Dialogue.asking (.enterExpr e)).InPlace whole
            (fun _ left => left = ⟨index, 0 :: counts⟩) ⟨index, counts⟩ (whole e) :=
        Dialogue.inPlace_asking (.enterExpr e) whole (fun left => focus (fun _ => left) e)
          fun _ => rfl
      have leaving (e : Expr) (count : Nat) : (Dialogue.asking (.leaveExpr e)).InPlace whole
          (fun _ left => left = ⟨index, Cursor.count counts⟩) ⟨index, count :: counts⟩ (whole e) :=
        Dialogue.inPlace_asking (.leaveExpr e) whole (fun left => focus (fun _ => left) e)
          fun _ => rfl
      apply entering.andThen
      rintro e _ rfl
      apply (inPlace_first ih focus e).andThen
      rintro e _ ⟨count, rfl, once⟩
      cases paired : isPaired e with
      | false => exact leaving e count
      | true =>
          rcases once paired with rfl
          have between :
              (Dialogue.asking (.betweenExpr e)).InPlace whole
                (fun _ left => left = ⟨index, 1 :: counts⟩) ⟨index, 1 :: counts⟩ (whole e) :=
            Dialogue.inPlace_asking (.betweenExpr e) whole (fun left => focus (fun _ => left) e)
              fun _ => rfl
          apply between.andThen
          rintro e _ rfl
          apply (inPlace_second ih focus).andThen
          rintro e _ ⟨count, rfl⟩
          exact leaving e count

end Expr

namespace Stmt
open Dialogue (InPlace)

theorem dialogue_inPlace (depth : Nat) (before : List Stmt) (s : Stmt) (after : List Stmt) :
    (s.dialogue depth).InPlace (fun node => before ++ node :: after)
      (fun _ left => left = ⟨before.length + 1, []⟩) ⟨before.length, []⟩
      (before ++ s :: after) := by
  have puts (s left : Stmt) :
      (before ++ s :: after).set before.length left = before ++ left :: after := by
    simp
  have entering : (Dialogue.asking (.enterStmt s)).InPlace (fun node => before ++ node :: after)
      (fun _ left => left = ⟨before.length, []⟩) ⟨before.length, []⟩ (before ++ s :: after) :=
    Dialogue.inPlace_asking (.enterStmt s) (fun node => before ++ node :: after)
      (fun left => puts s left) fun _ => rfl
  have rooted {around : Expr → Stmt}
      (modifies : ∀ f root, (around root).modifyRoot f = around (f root)) (root : Expr) :
      ((root.dialogue depth).map around).InPlace (fun node => before ++ node :: after)
        (fun _ left => left = ⟨before.length, []⟩) ⟨before.length, []⟩
        (before ++ around root :: after) :=
    (root.dialogue_inPlace depth ⟨before.length, []⟩ _ (focus_root modifies)).map
      (fun node => before ++ node :: after) around fun _ _ reached => reached
  have walking (s : Stmt) :
      (s.askRoot (Expr.dialogue depth)).InPlace (fun node => before ++ node :: after)
        (fun _ left => left = ⟨before.length, []⟩) ⟨before.length, []⟩ (before ++ s :: after) := by
    cases s with
    | expr line value => exact rooted (fun _ _ => rfl) value
    | enterIf line condition => exact rooted (fun _ _ => rfl) condition
    | beginBlock | endBlock | leaveIf => exact ⟨rfl, rfl⟩
    | declare line decl =>
        rcases decl with ⟨name, ty, _ | init, id⟩
        · exact ⟨rfl, rfl⟩
        · have own (f : Expr → Expr) (init : Expr) :
            (declare line ⟨name, ty, some init, id⟩).modifyRoot f =
              declare line ⟨name, ty, some (f init), id⟩ := rfl
          exact rooted own init
  apply entering.andThen
  rintro s _ rfl
  apply (walking s).andThen
  rintro s _ rfl
  exact Dialogue.inPlace_asking (.leaveStmt s) (fun node => before ++ node :: after)
    (fun left => puts s left) fun _ => rfl

end Stmt

/-- One call after the other: each is given the node that stands in its place, and leaves another
one there. -/
def Patched (stmts : List Stmt) (touches : List (Touch σ)) (left : List Stmt) : Prop :=
  match touches with
  | [] => stmts = left
  | t :: rest => t.cursor.put stmts t.call t.call.node = stmts ∧ Patched (t.put stmts) rest left

section
variable {stmts left : List Stmt} {touches : List (Touch σ)}

theorem Patched.unchanged {t : Touch σ} (patched : Patched stmts (touches ++ [t]) left)
    (same : t.left = t.call.node) :
    left = touches.foldl Touch.put stmts := by
  induction touches generalizing stmts with
  | nil =>
      rcases patched with ⟨given, rfl⟩
      rw [Touch.put, same, given]
      rfl
  | cons first rest ih => exact ih patched.2

end

namespace Dialogue
open Editor (journaled)

/-- What holds of a dialogue for all answers holds of it with an editor. -/
theorem run_patched (vs : Nat → Editor σ ε) {d : Dialogue α} {whole : α → List Stmt}
    {post : α → Cursor → Prop} {j : Journal σ} {stmts : List Stmt}
    (inPlace : d.InPlace whole post j.cursor stmts) :
    ∃ new, (d.run (journaled vs) j).state.touches = j.touches ++ new ∧
      Patched stmts new (whole (d.run (journaled vs) j).node) := by
  induction d generalizing j stmts with
  | ended node => exact ⟨[], (List.append_nil _).symm, inPlace.1⟩
  | spent node => exact ⟨[], (List.append_nil _).symm, inPlace⟩
  | ask call resume abandon ih =>
      rcases inPlace with ⟨given, answered⟩
      rw [run_ask]
      rcases (vs j.touches.length).answer call j.state with ⟨left, after, _ | reason⟩
      · rcases ih left (j := j.note call left after) (answered left).2 with ⟨new, touches, patched⟩
        exact ⟨⟨j.cursor, call, left, j.state, after⟩ :: new,
          by rw [touches, Journal.note_append], given, patched⟩
      · exact ⟨[⟨j.cursor, call, left, j.state, after⟩], rfl, given, (answered left).1⟩

end Dialogue

/-- The statements that a walk leaves are those that its calls make of the statements it began
with. -/
theorem Editor.walkStmts_patched (vs : Nat → Editor σ ε) (depth : Nat) (stmts : List Stmt)
    (state : σ) :
    Patched stmts (outcome vs depth stmts state).state.touches
      (outcome vs depth stmts state).node := by
  rw [outcome_dialogue]
  have inPlace := Dialogue.inPlace_each (fun nodes => nodes) (fun index => ⟨index, []⟩)
    (fun before s after => s.dialogue_inPlace depth before after) [] stmts
  rcases Dialogue.run_patched vs (j := .start state) inPlace with ⟨new, touches, patched⟩
  rw [Dialogue.ofStmts, touches]
  exact patched

end StackCompiler

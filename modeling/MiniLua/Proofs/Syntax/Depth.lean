import Mathlib.Tactic.Linarith
import Mathlib.Tactic.Ring
import MiniLua.Proofs.Syntax.Grammar

/-! How many blocks and expressions of a parsed chunk lie in one another. The levels bound each
chain of operators or suffixes on its own, and a chain deepens what was parsed before it, so the
bound is quadratic in the number of levels. -/

namespace MiniLua

mutual

/-- The most blocks and expressions on a path from here to a leaf. -/
@[simp] def Expr.depth : Expr → Nat
  | .nil _ | .bool _ _ | .int _ _ | .float _ _ | .string _ _ | .varargs _ | .name _ _ => 1
  | .index object key _ => max object.depth key.depth + 1
  | .call callee args _ => max callee.depth (exprsDepth args) + 1
  | .method object _ args _ => max object.depth (exprsDepth args) + 1
  | .function body => body.depth + 1
  | .table fields _ => fieldsDepth fields + 1
  | .binary _ lhs rhs _ => max lhs.depth rhs.depth + 1
  | .unary _ operand _ => operand.depth + 1
  | .paren inner _ => inner.depth + 1

@[simp] def exprsDepth : List Expr → Nat
  | [] => 0
  | e :: rest => max e.depth (exprsDepth rest)

@[simp] def Field.depth : Field → Nat
  | .item value => value.depth
  | .entry key value => max key.depth value.depth

@[simp] def fieldsDepth : List Field → Nat
  | [] => 0
  | field :: rest => max field.depth (fieldsDepth rest)

@[simp] def FunctionBody.depth : FunctionBody → Nat
  | .mk _ _ body _ => body.depth

@[simp] def Block.depth : Block → Nat
  | .mk stmts _ => stmtsDepth stmts + 1

@[simp] def stmtsDepth : List Stmt → Nat
  | [] => 0
  | stmt :: rest => max stmt.depth (stmtsDepth rest)

@[simp] def Stmt.depth : Stmt → Nat
  | .declare _ values _ => exprsDepth values
  | .declareFunction _ body _ => body.depth
  | .defineFunction _ body _ => body.depth
  | .assign targets values _ => max (exprsDepth targets) (exprsDepth values)
  | .call call => call.depth
  | .block body => body.depth
  | .whileLoop cond body _ => max cond.depth body.depth
  | .repeatLoop body cond _ => max body.depth cond.depth
  | .branch branches otherwise _ => max (branchesDepth branches) (otherwiseDepth otherwise)
  | .numericFor _ start limit step body _ =>
    max (max start.depth limit.depth) (max (stepDepth step) body.depth)
  | .genericFor _ values body _ => max (exprsDepth values) body.depth
  | .returnValues values _ => exprsDepth values
  | .breakLoop _ => 0

@[simp] def Branch.depth : Branch → Nat
  | .mk cond body => max cond.depth body.depth

@[simp] def branchesDepth : List Branch → Nat
  | [] => 0
  | branch :: rest => max branch.depth (branchesDepth rest)

@[simp] def otherwiseDepth : Option Block → Nat
  | none => 0
  | some block => block.depth

@[simp] def stepDepth : Option Expr → Nat
  | none => 0
  | some step => step.depth

end

theorem exprsDepth_le {es : List Expr} {d : Nat} : exprsDepth es ≤ d ↔ ∀ e ∈ es, e.depth ≤ d := by
  induction es with
  | nil => simp [exprsDepth]
  | cons e es ih => simp [exprsDepth, ih]

theorem fieldsDepth_le {fields : List Field} {d : Nat} :
    fieldsDepth fields ≤ d ↔ ∀ f ∈ fields, f.depth ≤ d := by
  induction fields with
  | nil => simp [fieldsDepth]
  | cons f fields ih => simp [fieldsDepth, ih]

theorem stmtsDepth_le {stmts : List Stmt} {d : Nat} :
    stmtsDepth stmts ≤ d ↔ ∀ s ∈ stmts, s.depth ≤ d := by
  induction stmts with
  | nil => simp [stmtsDepth]
  | cons s stmts ih => simp [stmtsDepth, ih]

theorem branchesDepth_le {branches : List Branch} {d : Nat} :
    branchesDepth branches ≤ d ↔ ∀ b ∈ branches, b.depth ≤ d := by
  induction branches with
  | nil => simp [branchesDepth]
  | cons b branches ih => simp [branchesDepth, ih]

theorem Expr.depth_pos (e : Expr) : 0 < e.depth := by
  cases e <;> simp [Expr.depth]

namespace Parser

/-- The depth of the deepest operand with so many levels. -/
def deepest (left : Nat) : Nat := left * (left + 1)

/-- What a level is made of. A block has at least the levels of the statements in it. -/
def shallowParts (left : Nat) : Parts where
  Name _ := True
  Operand e := e.depth ≤ deepest left
  Block b := 0 < left ∧ b.depth ≤ left ^ 2 + 2
  left := left

variable {left : Nat}

theorem depth_lt_of_block {b : Block} (h : (shallowParts left).Block b) :
    b.depth < deepest left + left + 2 := by
  obtain ⟨hpos, hdepth⟩ := h
  have hsquare : left ^ 2 + 2 < deepest left + left + 2 := by
    unfold deepest
    nlinarith
  exact hdepth.trans_lt hsquare

theorem FunctionMade.depth_lt {f : FunctionBody} (h : FunctionMade (shallowParts left) f) :
    f.depth < deepest left + left + 2 := by
  obtain ⟨params, variadic, body, pos, -, hbody⟩ := h
  exact depth_lt_of_block hbody

theorem FieldMade.depth_le {f : Field} (h : FieldMade (shallowParts left) f) :
    f.depth ≤ deepest left := by
  cases h with
  | item value hvalue => exact hvalue
  | named name pos value hvalue => exact max_le (value.depth_pos.trans_le hvalue) hvalue
  | entry key value hkey hvalue => exact max_le hkey hvalue

theorem TableMade.depth_le {e : Expr} (h : TableMade (shallowParts left) e) :
    e.depth ≤ deepest left + 1 := by
  obtain ⟨fields, pos, hfields⟩ := h
  exact Nat.succ_le_succ (fieldsDepth_le.mpr fun f hf ↦ (hfields f hf).depth_le)

theorem argsDepth_le {args : List Expr} (h : ∀ a ∈ args, ArgMade (shallowParts left) a) :
    exprsDepth args ≤ deepest left + 1 := by
  refine exprsDepth_le.mpr fun a ha ↦ ?_
  cases h a ha with
  | string value pos => simp [Expr.depth]
  | table _ h => exact h.depth_le
  | operand _ h => exact Nat.le_succ_of_le h

theorem PrimaryMade.depth_le {e : Expr} (h : PrimaryMade (shallowParts left) e) :
    e.depth ≤ deepest left + 1 := by
  cases h with
  | name name pos => simp [Expr.depth]
  | paren inner pos h => exact Nat.succ_le_succ h

theorem SuffixedMade.depth_le {links : Nat} {e : Expr}
    (h : SuffixedMade (shallowParts left) links e) : e.depth ≤ deepest left + 1 + links := by
  induction h with
  | primary e h => exact h.depth_le
  | member key keyPos pos _ ih =>
    simp only [Expr.depth]
    omega
  | index pos _ hkey ih =>
    have hkey : _ ≤ deepest left := hkey
    simp only [Expr.depth]
    omega
  | method name pos _ hargs ih =>
    have hargs := argsDepth_le hargs
    simp only [Expr.depth]
    omega
  | call pos _ hargs ih =>
    have hargs := argsDepth_le hargs
    simp only [Expr.depth]
    omega

theorem depth_le_of_target {e : Expr} (h : Target (shallowParts left) e) :
    e.depth ≤ deepest left + left + 2 := by
  obtain ⟨links, hlinks, h⟩ := h
  have hlinks : links ≤ left + 1 := hlinks
  have hdepth := h.depth_le
  omega

theorem SimpleMade.depth_le {e : Expr} (h : SimpleMade (shallowParts left) e) :
    e.depth ≤ deepest left + left + 2 := by
  cases h with
  | nil | bool | int | float | string | varargs => simp [Expr.depth]
  | function body h => exact h.depth_lt
  | table _ h =>
    have hdepth := h.depth_le
    omega
  | suffixed hlinks h => exact depth_le_of_target ⟨_, hlinks, h⟩

theorem OperandMade.chain_le {chain : Nat} {e : Expr}
    (h : OperandMade (shallowParts left) chain e) : chain ≤ left := by
  cases h with
  | simple | unary => exact Nat.zero_le _
  | binary op rhs pos hchain => exact hchain

theorem OperandMade.depth_le {chain : Nat} {e : Expr}
    (h : OperandMade (shallowParts left) chain e) :
    e.depth ≤ deepest left + left + 2 + chain := by
  induction h with
  | simple e h => exact h.depth_le
  | unary op operand pos h =>
    have hoperand : operand.depth ≤ deepest left := h
    simp only [Expr.depth]
    omega
  | binary op rhs pos _ _ hrhs ih =>
    have hrhs : rhs.depth ≤ deepest left := hrhs
    simp only [Expr.depth]
    omega

theorem StmtMade.depth_le {s : Stmt} (h : StmtMade (shallowParts left) s) :
    s.depth ≤ deepest left + left + 2 := by
  have hexpr {e : Expr} (h : (shallowParts left).Operand e) : e.depth ≤ deepest left + left + 2 :=
    le_trans h (by omega)
  have hexprs {es : List Expr} (h : ∀ e ∈ es, (shallowParts left).Operand e) :
      exprsDepth es ≤ deepest left + left + 2 := exprsDepth_le.mpr fun e he ↦ hexpr (h e he)
  have hblock {b : Block} (h : (shallowParts left).Block b) : b.depth ≤ deepest left + left + 2 :=
    (depth_lt_of_block h).le
  cases h with
  | declare names values pos _ hvalues => exact hexprs hvalues
  | declareFunction name body pos _ hbody => exact hbody.depth_lt.le
  | defineFunction name body pos _ hbody => exact hbody.depth_lt.le
  | assign targets values pos htargets hvalues =>
    exact max_le (exprsDepth_le.mpr fun t ht ↦ depth_le_of_target (htargets t ht)) (hexprs hvalues)
  | call call h => exact depth_le_of_target h
  | block body h => exact hblock h
  | whileLoop cond body pos hcond hbody => exact max_le (hexpr hcond) (hblock hbody)
  | repeatLoop body cond pos hbody hcond => exact max_le (hblock hbody) (hexpr hcond)
  | branch branches otherwise pos hbranches hotherwise =>
    have h : branchesDepth branches ≤ deepest left + left + 2 := branchesDepth_le.mpr fun b hb ↦ by
      obtain ⟨cond, body, hcond, hbody⟩ := hbranches b hb
      exact max_le (hexpr hcond) (hblock hbody)
    refine max_le h ?_
    cases otherwise with
    | none => exact Nat.zero_le _
    | some block => exact hblock (hotherwise block rfl)
  | numericFor var start limit step body pos _ hstart hlimit hstep hbody =>
    have h : stepDepth step ≤ deepest left + left + 2 := by
      cases step with
      | none => exact Nat.zero_le _
      | some step => exact hexpr (hstep step rfl)
    exact max_le (max_le (hexpr hstart) (hexpr hlimit)) (max_le h (hblock hbody))
  | genericFor names values body pos _ hvalues hbody =>
    exact max_le (hexprs hvalues) (hblock hbody)
  | returnValues values pos hvalues => exact hexprs hvalues
  | breakLoop pos => exact Nat.zero_le _

theorem levels_shallow (bound left : Nat) : (levels bound left).Makes (shallowParts left) := by
  refine levels_make bound (fun _ ↦ rfl) (fun _ ↦ rfl) trivial ?_ ?_ left
  · intro left chain e h
    calc
      e.depth ≤ deepest left + left + 2 + chain := h.depth_le
      _ ≤ deepest left + left + 2 + left := Nat.add_le_add_left h.chain_le _
      _ = deepest (left + 1) := by unfold deepest; ring
  · rintro left ⟨stmts, pos⟩ h
    have hdepth : stmtsDepth stmts ≤ deepest left + left + 2 :=
      stmtsDepth_le.mpr fun s hs ↦ (h s hs).depth_le
    have hsquare : deepest left + left + 2 + 1 = (left + 1) ^ 2 + 2 := by
      unfold deepest
      ring
    exact ⟨Nat.succ_pos _, hsquare ▸ Nat.succ_le_succ hdepth⟩

/-- A sum of names in parentheses, and a sum that begins with it. -/
def nestedSums (inner outer : Nat) : Bytes :=
  Bytes.ofText "return (x" ++ (List.replicate inner (Bytes.ofText "+x")).flatten ++
    Bytes.ofText ")" ++ (List.replicate outer (Bytes.ofText "+x")).flatten

end Parser

/-- A parsed chunk is no deeper than the square of its levels. -/
theorem depth_le_of_parse {source : Bytes} {chunk : Chunk} (h : parse source = .ok chunk) :
    chunk.depth ≤ Parser.maxLevels ^ 2 + 2 :=
  (Parser.block_of_parse (Parser.levels_shallow · Parser.maxLevels)
    (by simp [Parser.Named, Parser.shallowParts]) h).2

theorem depth_le_of_parse_call :
    ∃ chunk, parse (Bytes.ofText "f(1)") = .ok chunk ∧
      chunk.depth ≤ Parser.maxLevels ^ 2 + 2 := by
  have h : (parse (Bytes.ofText "f(1)")).isOk := by decide +kernel
  cases hparse : parse (Bytes.ofText "f(1)") with
  | error e =>
    rw [hparse] at h
    cases h
  | ok chunk => exact ⟨chunk, rfl, depth_le_of_parse hparse⟩

/-- Each of the two sums keeps to the levels, and together they are deeper. -/
theorem depth_of_nestedSums :
    ∃ chunk, parse (Parser.nestedSums 110 110) = .ok chunk ∧
      Parser.maxLevels + 2 < chunk.depth := by
  have h : (parse (Parser.nestedSums 110 110)).toOption.map Block.depth = some 223 := by
    decide +kernel
  cases hparse : parse (Parser.nestedSums 110 110) with
  | error e =>
    rw [hparse] at h
    cases h
  | ok chunk =>
    rw [hparse] at h
    have hdepth : chunk.depth = 223 := by simpa [Except.toOption] using h
    exact ⟨chunk, rfl, by rw [hdepth]; decide⟩

end MiniLua

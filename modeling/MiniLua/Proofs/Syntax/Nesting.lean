import MiniLua.Proofs.Syntax.Grammar

/-! How deep functions nest in one another. -/

namespace MiniLua

mutual

/-- No more than `d` functions lie in one another. -/
def Expr.Nests : Expr → Nat → Prop
  | .nil _, _ | .bool _ _, _ | .int _ _, _ | .float _ _, _ | .string _ _, _ | .varargs _, _
  | .name _ _, _ => True
  | .index object key _, d => object.Nests d ∧ key.Nests d
  | .call callee args _, d => callee.Nests d ∧ exprsNest args d
  | .method object _ args _, d => object.Nests d ∧ exprsNest args d
  | .function body, d => body.Nests d
  | .table fields _, d => fieldsNest fields d
  | .binary _ lhs rhs _, d => lhs.Nests d ∧ rhs.Nests d
  | .unary _ operand _, d => operand.Nests d
  | .paren inner _, d => inner.Nests d

def exprsNest : List Expr → Nat → Prop
  | [], _ => True
  | e :: rest, d => e.Nests d ∧ exprsNest rest d

def Field.Nests : Field → Nat → Prop
  | .item value, d => value.Nests d
  | .entry key value, d => key.Nests d ∧ value.Nests d

def fieldsNest : List Field → Nat → Prop
  | [], _ => True
  | field :: rest, d => field.Nests d ∧ fieldsNest rest d

def FunctionBody.Nests : FunctionBody → Nat → Prop
  | _, 0 => False
  | .mk _ _ body _, d + 1 => body.Nests d

def Block.Nests : Block → Nat → Prop
  | .mk stmts _, d => stmtsNest stmts d

def stmtsNest : List Stmt → Nat → Prop
  | [], _ => True
  | stmt :: rest, d => stmt.Nests d ∧ stmtsNest rest d

def Stmt.Nests : Stmt → Nat → Prop
  | .declare _ values _, d => exprsNest values d
  | .declareFunction _ body _, d => body.Nests d
  | .defineFunction _ body _, d => body.Nests d
  | .assign targets values _, d => exprsNest targets d ∧ exprsNest values d
  | .call call, d => call.Nests d
  | .block body, d => body.Nests d
  | .whileLoop cond body _, d => cond.Nests d ∧ body.Nests d
  | .repeatLoop body cond _, d => body.Nests d ∧ cond.Nests d
  | .branch branches otherwise _, d => branchesNest branches d ∧ otherwiseNests otherwise d
  | .numericFor _ start limit step body _, d =>
    start.Nests d ∧ limit.Nests d ∧ stepNests step d ∧ body.Nests d
  | .genericFor _ values body _, d => exprsNest values d ∧ body.Nests d
  | .returnValues values _, d => exprsNest values d
  | .breakLoop _, _ => True

def Branch.Nests : Branch → Nat → Prop
  | .mk cond body, d => cond.Nests d ∧ body.Nests d

def branchesNest : List Branch → Nat → Prop
  | [], _ => True
  | branch :: rest, d => branch.Nests d ∧ branchesNest rest d

def otherwiseNests : Option Block → Nat → Prop
  | none, _ => True
  | some block, d => block.Nests d

def stepNests : Option Expr → Nat → Prop
  | none, _ => True
  | some step, d => step.Nests d

end

theorem exprsNest_iff {es : List Expr} {d : Nat} : exprsNest es d ↔ ∀ e ∈ es, e.Nests d := by
  induction es with
  | nil => simp [exprsNest]
  | cons e es ih => simp [exprsNest, ih]

theorem fieldsNest_iff {fields : List Field} {d : Nat} :
    fieldsNest fields d ↔ ∀ f ∈ fields, f.Nests d := by
  induction fields with
  | nil => simp [fieldsNest]
  | cons f fields ih => simp [fieldsNest, ih]

theorem stmtsNest_iff {stmts : List Stmt} {d : Nat} :
    stmtsNest stmts d ↔ ∀ s ∈ stmts, s.Nests d := by
  induction stmts with
  | nil => simp [stmtsNest]
  | cons s stmts ih => simp [stmtsNest, ih]

theorem branchesNest_iff {branches : List Branch} {d : Nat} :
    branchesNest branches d ↔ ∀ b ∈ branches, b.Nests d := by
  induction branches with
  | nil => simp [branchesNest]
  | cons b branches ih => simp [branchesNest, ih]

mutual

theorem Expr.Nests.succ : ∀ {e : Expr} {d : Nat}, e.Nests d → e.Nests (d + 1)
  | .nil _, _, h | .bool _ _, _, h | .int _ _, _, h | .float _ _, _, h | .string _ _, _, h
  | .varargs _, _, h | .name _ _, _, h => h
  | .index _ _ _, _, h => ⟨h.1.succ, h.2.succ⟩
  | .call _ _ _, _, h => ⟨h.1.succ, exprsNest_succ h.2⟩
  | .method _ _ _ _, _, h => ⟨h.1.succ, exprsNest_succ h.2⟩
  | .function body, _, h => FunctionBody.Nests.succ (f := body) h
  | .table fields _, _, h => fieldsNest_succ (l := fields) h
  | .binary _ _ _ _, _, h => ⟨h.1.succ, h.2.succ⟩
  | .unary _ operand _, _, h => Expr.Nests.succ (e := operand) h
  | .paren inner _, _, h => Expr.Nests.succ (e := inner) h

theorem exprsNest_succ : ∀ {l : List Expr} {d : Nat}, exprsNest l d → exprsNest l (d + 1)
  | [], _, h => h
  | _ :: _, _, h => ⟨h.1.succ, exprsNest_succ h.2⟩

theorem Field.Nests.succ : ∀ {f : Field} {d : Nat}, f.Nests d → f.Nests (d + 1)
  | .item value, _, h => Expr.Nests.succ (e := value) h
  | .entry _ _, _, h => ⟨h.1.succ, h.2.succ⟩

theorem fieldsNest_succ : ∀ {l : List Field} {d : Nat}, fieldsNest l d → fieldsNest l (d + 1)
  | [], _, h => h
  | _ :: _, _, h => ⟨h.1.succ, fieldsNest_succ h.2⟩

theorem FunctionBody.Nests.succ : ∀ {f : FunctionBody} {d : Nat},
    f.Nests d → f.Nests (d + 1)
  | .mk _ _ _ _, 0, h => h.elim
  | .mk _ _ body _, _ + 1, h => Block.Nests.succ (b := body) h

theorem Block.Nests.succ : ∀ {b : Block} {d : Nat}, b.Nests d → b.Nests (d + 1)
  | .mk stmts _, _, h => stmtsNest_succ (l := stmts) h

theorem stmtsNest_succ : ∀ {l : List Stmt} {d : Nat}, stmtsNest l d → stmtsNest l (d + 1)
  | [], _, h => h
  | _ :: _, _, h => ⟨h.1.succ, stmtsNest_succ h.2⟩

theorem Stmt.Nests.succ : ∀ {s : Stmt} {d : Nat}, s.Nests d → s.Nests (d + 1)
  | .declare _ values _, _, h => exprsNest_succ (l := values) h
  | .declareFunction _ body _, _, h => FunctionBody.Nests.succ (f := body) h
  | .defineFunction _ body _, _, h => FunctionBody.Nests.succ (f := body) h
  | .assign _ _ _, _, h => ⟨exprsNest_succ h.1, exprsNest_succ h.2⟩
  | .call call, _, h => Expr.Nests.succ (e := call) h
  | .block body, _, h => Block.Nests.succ (b := body) h
  | .whileLoop _ _ _, _, h => ⟨h.1.succ, h.2.succ⟩
  | .repeatLoop _ _ _, _, h => ⟨h.1.succ, h.2.succ⟩
  | .branch _ _ _, _, h => ⟨branchesNest_succ h.1, otherwiseNests_succ h.2⟩
  | .numericFor _ _ _ _ _ _, _, h => ⟨h.1.succ, h.2.1.succ, stepNests_succ h.2.2.1, h.2.2.2.succ⟩
  | .genericFor _ _ _ _, _, h => ⟨exprsNest_succ h.1, h.2.succ⟩
  | .returnValues values _, _, h => exprsNest_succ (l := values) h
  | .breakLoop _, _, h => h

theorem Branch.Nests.succ : ∀ {b : Branch} {d : Nat}, b.Nests d → b.Nests (d + 1)
  | .mk _ _, _, h => ⟨h.1.succ, h.2.succ⟩

theorem branchesNest_succ : ∀ {bs : List Branch} {d : Nat},
    branchesNest bs d → branchesNest bs (d + 1)
  | [], _, h => h
  | _ :: _, _, h => ⟨h.1.succ, branchesNest_succ h.2⟩

theorem otherwiseNests_succ : ∀ {o : Option Block} {d : Nat},
    otherwiseNests o d → otherwiseNests o (d + 1)
  | none, _, h => h
  | some block, _, h => Block.Nests.succ (b := block) h

theorem stepNests_succ : ∀ {o : Option Expr} {d : Nat}, stepNests o d → stepNests o (d + 1)
  | none, _, h => h
  | some step, _, h => Expr.Nests.succ (e := step) h

end

/-! Functions that are parsed nest no deeper than the parser's levels. -/

namespace Parser

/-- What a level is made of when functions nest at most `left` deep below it. -/
def nestParts (left : Nat) : Parts where
  Name _ := True
  Operand e := e.Nests left
  Block b := ∃ d, left = d + 1 ∧ b.Nests d
  left := left

variable {left : Nat}

theorem nests_of_block {b : Block} (h : (nestParts left).Block b) : b.Nests left := by
  obtain ⟨d, rfl, hb⟩ := h
  exact hb.succ

theorem FunctionMade.nests {f : FunctionBody} (h : FunctionMade (nestParts left) f) :
    f.Nests left := by
  obtain ⟨params, variadic, body, pos, -, d, rfl, hbody⟩ := h
  exact hbody

theorem FieldMade.nests {f : Field} (h : FieldMade (nestParts left) f) : f.Nests left := by
  cases h with
  | item value hvalue => exact hvalue
  | named name pos value hvalue => exact ⟨trivial, hvalue⟩
  | entry key value hkey hvalue => exact ⟨hkey, hvalue⟩

theorem TableMade.nests {e : Expr} (h : TableMade (nestParts left) e) : e.Nests left := by
  obtain ⟨fields, pos, hfields⟩ := h
  exact fieldsNest_iff.mpr fun f hf ↦ (hfields f hf).nests

theorem argsNest {args : List Expr} (h : ∀ a ∈ args, ArgMade (nestParts left) a) :
    exprsNest args left := by
  refine exprsNest_iff.mpr fun a ha ↦ ?_
  cases h a ha with
  | string value pos => trivial
  | table _ h => exact h.nests
  | operand _ h => exact h

theorem PrimaryMade.nests {e : Expr} (h : PrimaryMade (nestParts left) e) : e.Nests left := by
  cases h with
  | name name pos => trivial
  | paren inner pos h => exact h

theorem SuffixedMade.nests {links : Nat} {e : Expr} (h : SuffixedMade (nestParts left) links e) :
    e.Nests left := by
  induction h with
  | primary e h => exact h.nests
  | member key keyPos pos _ ih => exact ⟨ih, trivial⟩
  | index pos _ hkey ih => exact ⟨ih, hkey⟩
  | method name pos _ hargs ih => exact ⟨ih, argsNest hargs⟩
  | call pos _ hargs ih => exact ⟨ih, argsNest hargs⟩

theorem SimpleMade.nests {e : Expr} (h : SimpleMade (nestParts left) e) : e.Nests left := by
  cases h with
  | nil | bool | int | float | string | varargs => trivial
  | function body h => exact h.nests
  | table _ h => exact h.nests
  | suffixed _ h => exact h.nests

theorem OperandMade.nests {chain : Nat} {e : Expr} (h : OperandMade (nestParts left) chain e) :
    e.Nests left := by
  induction h with
  | simple e h => exact h.nests
  | unary op operand pos h => exact h
  | binary op rhs pos _ _ hrhs ih => exact ⟨ih, hrhs⟩

theorem StmtMade.nests {s : Stmt} (h : StmtMade (nestParts left) s) : s.Nests left := by
  cases h with
  | declare names values pos _ hvalues => exact exprsNest_iff.mpr hvalues
  | declareFunction name body pos _ hbody => exact hbody.nests
  | defineFunction name body pos _ hbody => exact hbody.nests
  | assign targets values pos htargets hvalues =>
    have h : exprsNest targets left := exprsNest_iff.mpr fun t ht ↦
      let ⟨_, _, h⟩ := htargets t ht
      h.nests
    exact ⟨h, exprsNest_iff.mpr hvalues⟩
  | call call h =>
    obtain ⟨links, -, h⟩ := h
    exact h.nests
  | block body h => exact nests_of_block h
  | whileLoop cond body pos hcond hbody => exact ⟨hcond, nests_of_block hbody⟩
  | repeatLoop body cond pos hbody hcond =>
    exact ⟨nests_of_block hbody, hcond⟩
  | branch branches otherwise pos hbranches hotherwise =>
    have h : branchesNest branches left := branchesNest_iff.mpr fun b hb ↦ by
      obtain ⟨cond, body, hcond, hbody⟩ := hbranches b hb
      exact ⟨hcond, nests_of_block hbody⟩
    refine ⟨h, ?_⟩
    cases otherwise with
    | none => trivial
    | some block => exact nests_of_block (hotherwise block rfl)
  | numericFor var start limit step body pos _ hstart hlimit hstep hbody =>
    have h : stepNests step left := by
      cases step with
      | none => trivial
      | some step => exact hstep step rfl
    exact ⟨hstart, hlimit, h, nests_of_block hbody⟩
  | genericFor names values body pos _ hvalues hbody =>
    exact ⟨exprsNest_iff.mpr hvalues, nests_of_block hbody⟩
  | returnValues values pos hvalues => exact exprsNest_iff.mpr hvalues
  | breakLoop pos => trivial

theorem levels_nest (bound left : Nat) : (levels bound left).Makes (nestParts left) := by
  refine levels_make bound (fun _ ↦ rfl) (fun _ ↦ rfl) trivial ?_ ?_ left
  · intro left chain e h
    exact h.nests.succ
  · rintro left ⟨stmts, pos⟩ h
    exact ⟨left, rfl, stmtsNest_iff.mpr fun s hs ↦ (h s hs).nests⟩

end Parser

/-- The functions of a chunk, which is a function itself, nest no deeper than its levels. -/
theorem nests_of_parse {source : Bytes} {chunk : Chunk} (h : parse source = .ok chunk) :
    chunk.Nests (Parser.maxLevels - 1) := by
  obtain ⟨d, hd, hchunk⟩ := Parser.block_of_parse (Parser.levels_nest · Parser.maxLevels)
    (by simp [Parser.Named, Parser.nestParts]) h
  simpa [hd] using hchunk

end MiniLua

import MiniLua.Proofs.Code.Compiled
import MiniLua.Proofs.Stack.Point

/-! Along the code of a syntax tree every instruction has the operands it needs. -/

namespace MiniLua

namespace Home

variable {U : Home}

variable (U) in
/-- From one point the code goes on to another. -/
structure Leads (pc : Nat) (P : Point) (pc' : Nat) (P' : Point) : Prop where
  le : pc ≤ pc'
  stands : U.proto.Stands pc P → U.proto.Stands pc' P'
  safe : ∀ k, U.proto.Stands pc P → Safe U.proto U.heap k pc' P' → Safe U.proto U.heap k pc P

namespace Leads

variable {pc p q : Nat} {P P' Q : Point}

theorem refl (pc : Nat) (P : Point) : U.Leads pc P pc P := ⟨Nat.le_refl _, id, fun _ _ h ↦ h⟩

theorem trans (h : U.Leads pc P p P') (h' : U.Leads p P' q Q) : U.Leads pc P q Q :=
  ⟨h.le.trans h'.le, fun hP ↦ h'.stands (h.stands hP), fun k hP hQ ↦ h.safe k hP (h'.safe k (h.stands hP) hQ)⟩

end Leads

/-- What an instruction needs at a point, and the point behind it. -/
structure Grants (U : Home) (op : Opcode) (P : Point) (i : Instruction) (P' : Point) : Prop where
  takes : i.takes 0 ≤ P.slots.length
  multi : P.multi = i.closes op
  admits : P.Admits U.proto U.heap i op
  after : P.after i op = P'

variable {op : Opcode} {operands : Instruction → Prop} {pc pc' : Nat} {P P' : Point}

/-- One step of a jump or another instruction, with what holds at both successors. -/
theorem safe_of_has (h : U.Has op operands pc pc') (hstands : U.proto.Stands pc P)
    (hneeds : ∀ i, i.opcode? = some op → operands i → U.Grants op P i P') {k : Nat}
    (hfalls : op ≠ .jump → op ≠ .ret → Safe U.proto U.heap k pc' P')
    (hjumps : ∀ i, operands i → ∀ Q, P.jumped op = some Q → Safe U.proto U.heap k i.x Q) :
    Safe U.proto U.heap (k + 1) pc P := by
  obtain ⟨rfl, i, hi, hop, hoperands⟩ := h
  have hgrants := hneeds i hop hoperands
  refine ⟨hstands, i, op, hi, hop, hgrants.takes, hgrants.multi, hgrants.admits, ?_, hjumps i hoperands⟩
  rw [hgrants.after]
  exact hfalls

theorem stands_of_has (h : U.Has op operands pc pc') (hstands : U.proto.Stands pc P)
    (hneeds : ∀ i, i.opcode? = some op → operands i → U.Grants op P i P') (hjump : op ≠ .jump)
    (hret : op ≠ .ret) : U.proto.Stands pc' P' := by
  obtain ⟨rfl, i, hi, hop, hoperands⟩ := h
  rw [← (hneeds i hop hoperands).after]
  exact hstands.after hi hop hjump hret

/-- An instruction that always goes on to the next. -/
theorem leads_of_has (h : U.Has op operands pc pc') (hjumped : P.jumped op = none)
    (hret : op ≠ .ret)
    (hneeds : ∀ i, i.opcode? = some op → operands i → U.Grants op P i P') :
    U.Leads pc P pc' P' := by
  have hjump : op ≠ .jump := by
    rintro rfl
    cases hjumped
  have hle : pc ≤ pc' := by
    obtain ⟨rfl, -⟩ := h
    exact Nat.le_succ pc
  refine ⟨hle, fun hP ↦ stands_of_has h hP hneeds hjump hret, fun k hP hsafe ↦ ?_⟩
  refine (safe_of_has h hP hneeds (fun _ _ ↦ hsafe) fun i _ Q hQ ↦ ?_).mono (Nat.le_succ k)
  rw [hjumped] at hQ
  cases hQ

variable {S : List Bool} {C : List Nat} {locals : List Local}

/-- The cells of these locals are bound. -/
def Binds (locals : List Local) (C : List Nat) : Prop := ∀ l ∈ locals, l.cell ∈ C

theorem Binds.of_resolve {name : String} {n : Nat} (h : Binds locals C)
    (hname : resolve? locals name = some n) : n ∈ C := by
  obtain ⟨l, hl, rfl⟩ := Option.map_eq_some_iff.mp hname
  exact h l (List.mem_of_find?_eq_some hl)

theorem lt_of_captured {captures : Array Capture} {outer : List Level} {name : String} {n : Nat}
    (h : Captured captures outer name n) : n < captures.size := by
  cases outer with
  | nil => exact h.elim
  | cons level outer =>
    rw [Captured] at h
    split at h
    · exact (Array.getElem?_eq_some_iff.mp h).1
    · obtain ⟨j, hj, -⟩ := h
      exact (Array.getElem?_eq_some_iff.mp hj).1

theorem leads_loadAt {v : Value} (h : U.LoadAt v pc pc') (hv : v.Plain) :
    U.Leads pc ⟨S, C, false⟩ pc' ⟨false :: S, C, false⟩ := by
  obtain ⟨k, hk, hload⟩ := h
  refine leads_of_has hload rfl (by decide) fun i hop hx ↦ ?_
  subst hx
  constructor <;> simp [Instruction.takes, hop, hk, hv]

theorem leads_loadTextAt {s : Bytes} (h : U.LoadTextAt s pc pc') :
    U.Leads pc ⟨S, C, false⟩ pc' ⟨false :: S, C, false⟩ := by
  obtain ⟨k, ⟨n, hn, -⟩, hload⟩ := h
  exact leads_loadAt ⟨k, hn, hload⟩ trivial

theorem leads_loadNameAt {name : String} (h : U.LoadNameAt locals name pc pc')
    (hbinds : Binds locals C) :
    U.Leads pc ⟨S, C, false⟩ pc' ⟨false :: S, C, false⟩ := by
  obtain ⟨b, hb, h⟩ := h
  cases b with
  | cell n =>
    have hn := hbinds.of_resolve hb
    refine leads_of_has h rfl (by decide) fun i hop hx ↦ ?_
    subst hx
    constructor <;> simp [Instruction.takes, hop, hn]
  | upvalue n =>
    have hn := lt_of_captured hb.2
    refine leads_of_has h rfl (by decide) fun i hop hx ↦ ?_
    subst hx
    constructor <;> simp [Instruction.takes, hop, hn]
  | global =>
    obtain ⟨k, ⟨n, hk, -⟩, h⟩ := h
    refine leads_of_has h rfl (by decide) fun i hop hx ↦ ?_
    subst hx
    constructor <;> simp [Instruction.takes, hop, hk, Value.Plain]

theorem leads_storeNameAt {name : String} (h : U.StoreNameAt locals name pc pc')
    (hbinds : Binds locals C) :
    U.Leads pc ⟨false :: S, C, false⟩ pc' ⟨S, C, false⟩ := by
  obtain ⟨b, hb, h⟩ := h
  cases b with
  | cell n =>
    have hn := hbinds.of_resolve hb
    refine leads_of_has h rfl (by decide) fun i hop hx ↦ ?_
    subst hx
    constructor <;> simp [Instruction.takes, hop, hn]
  | upvalue n =>
    have hn := lt_of_captured hb.2
    refine leads_of_has h rfl (by decide) fun i hop hx ↦ ?_
    subst hx
    constructor <;> simp [Instruction.takes, hop, hn]
  | global =>
    obtain ⟨k, ⟨n, hk, -⟩, h⟩ := h
    refine leads_of_has h rfl (by decide) fun i hop hx ↦ ?_
    subst hx
    constructor <;> simp [Instruction.takes, hop, hk, Value.Plain]

theorem leads_nilsAt {bound n : Nat} (h : U.RepeatedAt .loadNil bound n pc pc') (hn : n ≤ bound) :
    U.Leads pc ⟨S, C, false⟩ pc' ⟨List.replicate n false ++ S, C, false⟩ := by
  induction bound generalizing n pc S with
  | zero =>
    obtain rfl : n = 0 := by omega
    obtain rfl : pc' = pc := h
    exact .refl _ _
  | succ bound ih =>
    rw [RepeatedAt] at h
    split at h
    · next hzero =>
      subst hzero h
      exact .refl _ _
    · obtain ⟨p, hnils, hmore⟩ := h
      have hfirst : U.Leads pc ⟨S, C, false⟩ p
          ⟨List.replicate (min n 255) false ++ S, C, false⟩ := by
        refine leads_of_has hnils rfl (by decide) fun i hop ha ↦ ?_
        constructor <;> simp [Instruction.takes, hop, ha]
      have hrest := ih hmore (by omega) (S := List.replicate (min n 255) false ++ S)
      rw [← List.append_assoc, List.replicate_append_replicate,
        show n - 255 + min n 255 = n by omega] at hrest
      exact hfirst.trans hrest

theorem leads_popsAt {bound n : Nat} (h : U.RepeatedAt .pop bound n pc pc') (hn : n ≤ bound) :
    U.Leads pc ⟨List.replicate n false ++ S, C, false⟩ pc' ⟨S, C, false⟩ := by
  induction bound generalizing n pc with
  | zero =>
    obtain rfl : n = 0 := by omega
    obtain rfl : pc' = pc := h
    exact .refl _ _
  | succ bound ih =>
    rw [RepeatedAt] at h
    split at h
    · next hzero =>
      subst hzero h
      exact .refl _ _
    · obtain ⟨p, hpops, hmore⟩ := h
      have hfirst : U.Leads pc ⟨List.replicate n false ++ S, C, false⟩ p
          ⟨List.replicate (n - 255) false ++ S, C, false⟩ := by
        refine leads_of_has hpops rfl (by decide) fun i hop ha ↦ ?_
        have hle : min n 255 ≤ n := Nat.min_le_left _ _
        constructor <;> simp [Instruction.takes, hop, ha, List.drop_append, Nat.sub_eq_zero_of_le hle]
        omega
      exact hfirst.trans (ih hmore (by omega))

theorem leads_adjustAt {pushed n : Nat} {want : Want} (h : U.AdjustAt pushed want pc pc' n) :
    U.Leads pc ⟨List.replicate pushed false ++ S, C, false⟩ pc'
      ⟨List.replicate n false ++ S, C, false⟩ := by
  cases want with
  | all =>
    obtain ⟨rfl, rfl⟩ := h
    exact .refl _ _
  | exactly m =>
    obtain ⟨rfl, h⟩ := h
    split at h
    · have hnils := leads_nilsAt h (Nat.le_refl _) (S := List.replicate pushed false ++ S)
        (C := C)
      rwa [← List.append_assoc, List.replicate_append_replicate,
        show n - pushed + pushed = n by omega] at hnils
    · have hpops := leads_popsAt h (Nat.le_refl _) (S := List.replicate n false ++ S)
        (C := C)
      rwa [← List.append_assoc, List.replicate_append_replicate,
        show pushed - n + n = pushed by omega] at hpops

end Home

/-- The point behind an expression of which so many values are wanted. -/
def Expr.left (e : Expr) (want : Want) (S : List Bool) (C : List Nat) : Point :=
  match e.isMulti, want with
  | true, .all => ⟨S, C, true⟩
  | true, .exactly n => ⟨List.replicate n false ++ S, C, false⟩
  | false, _ => ⟨false :: S, C, false⟩

theorem Expr.left_one (e : Expr) (S : List Bool) (C : List Nat) :
    e.left (.exactly 1) S C = ⟨false :: S, C, false⟩ := by
  unfold left
  cases e.isMulti <;> rfl

namespace Home

variable {U : Home} {op : Opcode} {pc pc' : Nat} {S : List Bool} {C : List Nat}
  {locals : List Local} {want : Want}

theorem leads_callAt {args : Nat} {multi : Bool} {e : Expr} (he : e.isMulti = true)
    (h : U.CallAt args multi want pc pc') :
    U.Leads pc ⟨List.replicate args false ++ false :: S, C, multi⟩ pc'
      (e.left want S C) := by
  refine leads_of_has h rfl (by decide) fun i hop hi ↦ ?_
  obtain ⟨ha, hb, hc⟩ := hi
  have hdrop : (List.replicate args false ++ false :: S).drop (args + 1) = S := by
    rw [List.append_cons, ← List.replicate_succ']
    exact List.drop_left' (List.length_replicate ..)
  have hb' : multi = (i.b != 0) := by
    cases multi with
    | false => simp [hb.mpr rfl]
    | true =>
      have hne : i.b ≠ 0 := fun hzero ↦ nomatch hb.mp hzero
      simp [hne]
  refine ⟨?_, hb', trivial, ?_⟩
  · simp [Instruction.takes, hop, ha]
  · cases want with
    | all =>
      have hc : i.c = 0 := UInt8.toNat_inj.mp hc
      simp [Expr.left, he, ha, hc, hdrop]
    | exactly n =>
      obtain ⟨-, hc⟩ := hc
      have hne : i.c ≠ 0 := by
        rintro h
        rw [h] at hc
        cases hc
      simp [Expr.left, he, ha, hc, hdrop, hne]

theorem leads_varargsAt {e : Expr} (he : e.isMulti = true) (h : U.VarargsAt want pc pc') :
    U.Leads pc ⟨S, C, false⟩ pc' (e.left want S C) := by
  refine leads_of_has h.2 rfl (by decide) fun i hop ha ↦ ?_
  refine ⟨?_, rfl, trivial, ?_⟩
  · simp [Instruction.takes, hop]
  · cases want with
    | all =>
      have ha : i.a = 0 := UInt8.toNat_inj.mp ha
      simp [Expr.left, he, ha]
    | exactly n =>
      obtain ⟨-, ha⟩ := ha
      have hne : i.a ≠ 0 := by
        rintro h
        rw [h] at ha
        cases ha
      simp [Expr.left, he, ha, hne]

theorem leads_initIndex {table : Bool} (h : U.Plain .initIndex pc pc') :
    U.Leads pc ⟨false :: false :: table :: S, C, false⟩ pc'
      ⟨table :: S, C, false⟩ := by
  refine leads_of_has h rfl (by decide) fun i hop _ ↦ ?_
  constructor <;> simp [Instruction.takes, hop]

/-- A jump that keeps its operand, and the code that it leaves out. -/
theorem leads_shortcut {p : Nat} (hkeeps : op = .jumpIfFalseKeep ∨ op = .jumpIfTrueKeep)
    (h : U.Wide op pc' pc p)
    (hrest : U.Leads p ⟨S, C, false⟩ pc' ⟨false :: S, C, false⟩) :
    U.Leads pc ⟨false :: S, C, false⟩ pc' ⟨false :: S, C, false⟩ := by
  have hneeds : ∀ i, i.opcode? = some op → i.x = pc' →
      U.Grants op ⟨false :: S, C, false⟩ i ⟨S, C, false⟩ := by
    intro i hop _
    obtain rfl | rfl := hkeeps <;> constructor <;> simp [Instruction.takes, hop]
  have hstands : U.proto.Stands pc ⟨false :: S, C, false⟩ →
      U.proto.Stands p ⟨S, C, false⟩ := by
    intro hP
    obtain rfl | rfl := hkeeps <;> exact stands_of_has h hP hneeds (by decide) (by decide)
  have hle : pc ≤ p := by
    obtain ⟨rfl, -⟩ := h
    exact Nat.le_succ pc
  refine ⟨hle.trans hrest.le, fun hP ↦ hrest.stands (hstands hP), fun k hP hsafe ↦ ?_⟩
  refine (safe_of_has h hP hneeds (fun _ _ ↦ hrest.safe k (hstands hP) hsafe) ?_).mono
    (Nat.le_succ k)
  intro i hx Q hQ
  rw [hx]
  obtain rfl | rfl := hkeeps <;> cases hQ <;> exact hsafe

end Home

theorem plain_of_negatedLiteral {o : UnaryOp} {e : Expr} {v : Value}
    (h : negatedLiteral? o e = some v) : v.Plain := by
  unfold negatedLiteral? at h
  split at h
  · obtain ⟨n, -, rfl⟩ := Option.map_eq_some_iff.mp h
    trivial
  · cases h
    trivial
  · cases h

mutual

theorem Expr.leads {U : Home} {locals : List Local} {C : List Nat}
    (hfew : U.proto.protos.size < Instruction.wideLimit) (hbinds : Home.Binds locals C) : ∀ (e : Expr) {want : Want} {S : List Bool}
    {pc pc' : Nat}, e.At U locals want pc pc' →
      U.Leads pc ⟨S, C, false⟩ pc' (e.left want S C)
  | .nil _, _, _, _, _, h => by
    refine Home.leads_of_has h rfl (by decide) fun i hop ha ↦ ?_
    constructor <;> simp [Instruction.takes, hop, ha, Expr.left, Expr.isMulti]
  | .bool true _, _, _, _, _, h => by
    refine Home.leads_of_has h rfl (by decide) fun i hop _ ↦ ?_
    constructor <;> simp [Instruction.takes, hop, Expr.left, Expr.isMulti]
  | .bool false _, _, _, _, _, h => by
    refine Home.leads_of_has h rfl (by decide) fun i hop _ ↦ ?_
    constructor <;> simp [Instruction.takes, hop, Expr.left, Expr.isMulti]
  | .int i _, _, _, _, _, h => Home.leads_loadAt h trivial
  | .float x _, _, _, _, _, h => Home.leads_loadAt h trivial
  | .string s _, _, _, _, _, h => Home.leads_loadTextAt h
  | .varargs _, _, _, _, _, h => Home.leads_varargsAt rfl h
  | .name name _, _, _, _, _, h => Home.leads_loadNameAt h hbinds
  | .index object key _, _, S, _, _, h => by
    obtain ⟨p, q, hobject, hkey, hindex⟩ := h
    have hobject := object.leads hfew hbinds hobject (S := S)
    have hkey := key.leads hfew hbinds hkey (S := false :: S)
    rw [Expr.left_one] at hobject hkey
    refine (hobject.trans hkey).trans (Home.leads_of_has hindex rfl (by decide) fun i hop _ ↦ ?_)
    constructor <;> simp [Instruction.takes, hop, Expr.left, Expr.isMulti]
  | .call callee args _, _, S, _, _, h => by
    obtain ⟨p, q, n, multi, hcallee, hargs, hcall⟩ := h
    have hcallee := callee.leads hfew hbinds hcallee (S := S)
    rw [Expr.left_one] at hcallee
    exact (hcallee.trans (leads_exprs hfew hbinds args hargs)).trans (Home.leads_callAt rfl hcall)
  | .method object name args _, _, S, _, _, h => by
    obtain ⟨p, q, r, k, n, multi, hobject, ⟨m, hk, -⟩, hself, hargs, hcall⟩ := h
    have hobject := object.leads hfew hbinds hobject (S := S)
    rw [Expr.left_one] at hobject
    have hself : U.Leads p ⟨false :: S, C, false⟩ q
        ⟨false :: false :: S, C, false⟩ := by
      refine Home.leads_of_has hself rfl (by decide) fun i hop hx ↦ ?_
      subst hx
      constructor <;> simp [Instruction.takes, hop, hk, Value.Plain]
    have hargs := leads_exprs hfew hbinds args hargs (S := false :: false :: S)
    have hstack : List.replicate n false ++ false :: false :: S =
        List.replicate (n + 1) false ++ false :: S := by
      rw [List.append_cons, ← List.replicate_succ']
    rw [hstack] at hargs
    exact ((hobject.trans hself).trans hargs).trans (Home.leads_callAt rfl hcall)
  | .function body, _, _, _, _, h => body.leads hfew hbinds h
  | .table fields _, _, S, pc, _, h => by
    obtain ⟨p, hnew, hfields⟩ := h
    have hnew : U.Leads pc ⟨S, C, false⟩ p ⟨true :: S, C, false⟩ := by
      refine Home.leads_of_has hnew rfl (by decide) fun i hop _ ↦ ?_
      constructor <;> simp [Instruction.takes, hop]
    refine (hnew.trans (leads_fields hfew hbinds fields hfields)).trans
      ⟨Nat.le_refl _, fun h ↦ ⟨h.height, h.multi⟩, ?_⟩
    intro k _ hsafe
    have hless : Point.Weaker ⟨false :: S, C, false⟩ ⟨true :: S, C, false⟩ :=
      ⟨.cons (fun _ ↦ rfl) (List.forall₂_same.mpr fun _ _ h ↦ h), fun _ h ↦ h, rfl⟩
    exact hsafe.weaken hless fun h ↦ h
  | .binary o lhs rhs _, _, S, pc, pc', h => by
    rw [Expr.At] at h
    split at h
    · next code hcode =>
      obtain ⟨p, q, hlhs, hrhs, hbinary⟩ := h
      have hlhs := lhs.leads hfew hbinds hlhs (S := S)
      have hrhs := rhs.leads hfew hbinds hrhs (S := false :: S)
      rw [Expr.left_one] at hlhs hrhs
      refine (hlhs.trans hrhs).trans (Home.leads_of_has hbinary ?_ ?_ fun i hop _ ↦ ?_)
      · cases o <;> cases hcode <;> rfl
      · cases o <;> cases hcode <;> decide
      · cases o <;> cases hcode <;> constructor <;>
          simp [Instruction.takes, hop, Expr.left, Expr.isMulti]
    · obtain ⟨p, q, hlhs, hshortcut, hrhs⟩ := h
      have hlhs := lhs.leads hfew hbinds hlhs (S := S)
      have hrhs := rhs.leads hfew hbinds hrhs (S := S)
      rw [Expr.left_one] at hlhs hrhs
      have hkeeps : o.shortcut = .jumpIfFalseKeep ∨ o.shortcut = .jumpIfTrueKeep := by
        cases o <;> simp [BinaryOp.shortcut]
      exact hlhs.trans (Home.leads_shortcut hkeeps hshortcut hrhs)
  | .unary o operand _, _, S, _, _, h => by
    rw [Expr.At] at h
    split at h
    · next v hv => exact Home.leads_loadAt h (plain_of_negatedLiteral hv)
    · obtain ⟨p, hoperand, hunary⟩ := h
      have hoperand := operand.leads hfew hbinds hoperand (S := S)
      rw [Expr.left_one] at hoperand
      refine hoperand.trans (Home.leads_of_has hunary ?_ ?_ fun i hop _ ↦ ?_)
      · cases o <;> rfl
      · cases o <;> decide
      · cases o <;> constructor <;> simp [Instruction.takes, hop, Expr.left, Expr.isMulti, UnaryOp.opcode]
  | .paren inner _, _, S, _, _, h => by
    have hinner := inner.leads hfew hbinds h (S := S)
    rw [Expr.left_one] at hinner
    exact hinner

theorem leads_exprs {U : Home} {locals : List Local} {C : List Nat}
    (hfew : U.proto.protos.size < Instruction.wideLimit) (hbinds : Home.Binds locals C) : ∀ (es : List Expr) {want : Want} {pushed : Nat}
    {S : List Bool} {pc pc' n : Nat} {multi : Bool}, exprsAt U locals want pushed es pc pc' n multi →
      U.Leads pc ⟨List.replicate pushed false ++ S, C, false⟩ pc'
        ⟨List.replicate n false ++ S, C, multi⟩
  | [], _, _, _, _, _, _, _, h => by
    obtain ⟨hadjust, rfl⟩ := h
    exact Home.leads_adjustAt hadjust
  | e :: rest, want, pushed, S, _, _, n, _, h => by
    rw [exprsAt.eq_def] at h
    dsimp only at h
    split at h
    · next hlast =>
      have hmulti : e.isMulti = true := by simp at hlast; exact hlast.2
      cases want with
      | all =>
        obtain ⟨he, rfl, rfl⟩ := h
        have he := e.leads hfew hbinds he (S := List.replicate n false ++ S)
        simp only [Expr.left, hmulti] at he
        exact he
      | exactly m =>
        obtain ⟨p, he, hadjust, rfl⟩ := h
        have he := e.leads hfew hbinds he (S := List.replicate pushed false ++ S)
        simp only [Expr.left, hmulti] at he
        rw [← List.append_assoc, List.replicate_append_replicate, Nat.add_comm] at he
        exact he.trans (Home.leads_adjustAt hadjust)
    · obtain ⟨p, he, hrest⟩ := h
      have he := e.leads hfew hbinds he (S := List.replicate pushed false ++ S)
      rw [Expr.left_one] at he
      exact he.trans (leads_exprs hfew hbinds rest hrest)

theorem leads_fields {U : Home} {locals : List Local} {C : List Nat}
    (hfew : U.proto.protos.size < Instruction.wideLimit) (hbinds : Home.Binds locals C) : ∀ (fields : List Field) {next : Nat} {S : List Bool}
    {pc pc' : Nat}, fieldsAt U locals next fields pc pc' →
      U.Leads pc ⟨true :: S, C, false⟩ pc' ⟨true :: S, C, false⟩
  | [], _, _, _, _, h => by
    obtain rfl := h
    exact .refl _ _
  | .item value :: rest, next, S, pc, _, h => by
    rw [fieldsAt] at h
    split at h
    · next hlast =>
      have hmulti : value.isMulti = true := by simp at hlast; exact hlast.2
      obtain ⟨p, hvalue, hset⟩ := h
      have hvalue := value.leads hfew hbinds hvalue (S := true :: S)
      simp only [Expr.left, hmulti] at hvalue
      refine hvalue.trans (Home.leads_of_has hset rfl (by decide) fun i hop _ ↦ ?_)
      constructor <;> simp [Instruction.takes, hop]
    · obtain ⟨p, q, r, hindex, hvalue, hinit, hrest⟩ := h
      have hindex := Home.leads_loadAt hindex trivial (S := true :: S) (C := C)
      have hvalue := value.leads hfew hbinds hvalue (S := false :: true :: S)
      rw [Expr.left_one] at hvalue
      exact ((hindex.trans hvalue).trans (Home.leads_initIndex hinit)).trans
        (leads_fields hfew hbinds rest hrest)
  | .entry key value :: rest, next, S, pc, _, h => by
    obtain ⟨p, q, r, hkey, hvalue, hinit, hrest⟩ := h
    have hkey := key.leads hfew hbinds hkey (S := true :: S)
    have hvalue := value.leads hfew hbinds hvalue (S := false :: true :: S)
    rw [Expr.left_one] at hkey hvalue
    exact ((hkey.trans hvalue).trans (Home.leads_initIndex hinit)).trans
      (leads_fields hfew hbinds rest hrest)

theorem FunctionBody.leads {U : Home} {locals : List Local} {C : List Nat}
    (hfew : U.proto.protos.size < Instruction.wideLimit) (hbinds : Home.Binds locals C) : ∀ (body : FunctionBody) {S : List Bool}
    {pc pc' : Nat}, body.At U locals pc pc' →
      U.Leads pc ⟨S, C, false⟩ pc' ⟨false :: S, C, false⟩
  | .mk params variadic body _, _, _, _, h => by
    obtain ⟨x, k, proto, hclosure, hk, hproto, -, -, -, -, hsupplies, -⟩ := h
    have hx : x < U.proto.protos.size := (Array.getElem?_eq_some_iff.mp hk).1
    refine Home.leads_of_has hclosure rfl (by decide) fun i hop hi ↦ ?_
    rw [Nat.mod_eq_of_lt (hx.trans hfew)] at hi
    subst hi
    refine ⟨?_, rfl, ⟨k, proto, hk, hproto, fun c hc ↦ ?_⟩, ?_⟩
    · simp [Instruction.takes, hop]
    · have hc := hsupplies c hc
      cases c with
      | cell n =>
        obtain ⟨l, hl, rfl⟩ := hc
        exact hbinds l hl
      | upvalue n => exact hc
    · simp

end

theorem eq_of_exprsAt {U : Home} {locals : List Local} {m : Nat} :
    ∀ {es : List Expr} {pushed pc pc' n : Nat} {multi : Bool},
      exprsAt U locals (.exactly m) pushed es pc pc' n multi → n = m ∧ multi = false
  | [], _, _, _, _, _, h => ⟨h.1.1, h.2⟩
  | e :: rest, _, _, _, _, _, h => by
    rw [exprsAt.eq_def] at h
    dsimp only at h
    split at h
    · obtain ⟨p, -, hadjust, hmulti⟩ := h
      exact ⟨hadjust.1, hmulti⟩
    · obtain ⟨p, -, hrest⟩ := h
      exact eq_of_exprsAt hrest

theorem Expr.leads_target {U : Home} {locals : List Local} {C : List Nat}
    (hfew : U.proto.protos.size < Instruction.wideLimit) (hbinds : Home.Binds locals C)
    {S : List Bool} {pc pc' : Nat} :
    ∀ {target : Expr}, target.TargetAt U locals pc pc' →
      U.Leads pc ⟨false :: S, C, false⟩ pc' ⟨S, C, false⟩
  | .name x _, h => Home.leads_storeNameAt h hbinds
  | .index object key _, h => by
    obtain ⟨p, q, hobject, hkey, hset⟩ := h
    have hobject := object.leads hfew hbinds hobject (S := false :: S)
    have hkey := key.leads hfew hbinds hkey (S := false :: false :: S)
    rw [Expr.left_one] at hobject hkey
    refine (hobject.trans hkey).trans (Home.leads_of_has hset rfl (by decide) fun i hop _ ↦ ?_)
    constructor <;> simp [Instruction.takes, hop]

theorem leads_targets {U : Home} {locals : List Local} {C : List Nat}
    (hfew : U.proto.protos.size < Instruction.wideLimit) (hbinds : Home.Binds locals C) :
    ∀ {targets : List Expr} {S : List Bool} {pc pc' : Nat}, targetsAt U locals targets pc pc' →
      U.Leads pc ⟨List.replicate targets.length false ++ S, C, false⟩ pc' ⟨S, C, false⟩
  | [], _, _, _, h => by
    obtain rfl := h
    exact .refl _ _
  | target :: rest, S, _, _, h => by
    obtain ⟨p, hrest, htarget⟩ := h
    have hrest := leads_targets hfew hbinds hrest (S := false :: S)
    rw [List.append_cons, ← List.replicate_succ'] at hrest
    exact hrest.trans (Expr.leads_target hfew hbinds htarget)

namespace Home

variable {U : Home} {pc pc' : Nat} {S : List Bool} {C : List Nat} {locals locals' : List Local}

theorem leads_newCell {cell : Nat} (h : U.Wide .newCell cell pc pc')
    (hcell : cell < U.proto.cellCount) :
    U.Leads pc ⟨false :: S, C, false⟩ pc' ⟨S, cell :: C, false⟩ := by
  refine leads_of_has h rfl (by decide) fun i hop hx ↦ ?_
  subst hx
  constructor <;> simp [Instruction.takes, hop, hcell]

theorem leads_newCellsAt {cells : List Nat} (h : U.NewCellsAt cells pc pc')
    (hcells : ∀ cell ∈ cells, cell < U.proto.cellCount) :
    U.Leads pc ⟨List.replicate cells.length false ++ S, C, false⟩ pc'
      ⟨S, cells.reverse ++ C, false⟩ := by
  induction cells generalizing pc C with
  | nil =>
    obtain rfl : pc' = pc := h
    exact .refl _ _
  | cons cell cells ih =>
    obtain ⟨p, hcell, hmore⟩ := h
    have hfirst := leads_newCell hcell (hcells cell List.mem_cons_self) (C := C)
      (S := List.replicate cells.length false ++ S)
    have hrest := ih hmore (fun c hc ↦ hcells c (List.mem_cons_of_mem _ hc)) (C := cell :: C)
    rw [List.reverse_cons, List.append_assoc]
    exact hfirst.trans hrest

theorem Declares.spec {names : List String} {cells : List Nat}
    (h : U.Declares names cells locals locals') :
    cells.length = names.length ∧ (∀ cell ∈ cells, cell < U.proto.cellCount) ∧
      locals ⊆ locals' ∧ ∀ l ∈ locals', l ∈ locals ∨ l.cell ∈ cells := by
  induction names generalizing cells locals with
  | nil =>
    obtain ⟨rfl, rfl⟩ := h
    exact ⟨rfl, fun _ h ↦ (nomatch h), fun _ h ↦ h, fun _ ↦ .inl⟩
  | cons name names ih =>
    obtain ⟨l, rest, -, hfresh, rfl, hmore⟩ := h
    obtain ⟨hlength, hcells, hsub, hfrom⟩ := ih hmore
    refine ⟨by simp [hlength], List.forall_mem_cons.mpr ⟨hfresh.cell_lt, hcells⟩,
      fun l' hl' ↦ hsub (List.mem_cons_of_mem _ hl'), fun l' hl' ↦ ?_⟩
    obtain hl' | hl' := hfrom l' hl'
    · obtain rfl | hl' := List.mem_cons.mp hl'
      · exact .inr List.mem_cons_self
      · exact .inl hl'
    · exact .inr (List.mem_cons_of_mem _ hl')

theorem leads_pathAt {keys : List String} (h : U.PathAt keys pc pc') :
    U.Leads pc ⟨false :: S, C, false⟩ pc' ⟨false :: S, C, false⟩ := by
  induction keys generalizing pc with
  | nil =>
    obtain rfl : pc' = pc := h
    exact .refl _ _
  | cons key keys ih =>
    obtain ⟨p, q, hkey, hindex, hmore⟩ := h
    have hkey := leads_loadTextAt hkey (S := false :: S) (C := C)
    have hindex : U.Leads p ⟨false :: false :: S, C, false⟩ q ⟨false :: S, C, false⟩ := by
      refine leads_of_has hindex rfl (by decide) fun i hop _ ↦ ?_
      constructor <;> simp [Instruction.takes, hop]
    exact (hkey.trans hindex).trans (ih hmore)

theorem leads_defineAt {name : FunctionName} (h : U.DefineAt locals name pc pc')
    (hbinds : Binds locals C) : U.Leads pc ⟨false :: S, C, false⟩ pc' ⟨S, C, false⟩ := by
  unfold DefineAt at h
  split at h
  · exact leads_storeNameAt h hbinds
  · obtain ⟨p, q, r, hfirst, hpath, hlast, hset⟩ := h
    have hfirst := leads_loadNameAt hfirst hbinds (S := false :: S)
    have hpath := leads_pathAt hpath (S := false :: S) (C := C)
    have hlast := leads_loadTextAt hlast (S := false :: false :: S) (C := C)
    refine ((hfirst.trans hpath).trans hlast).trans (leads_of_has hset rfl (by decide) ?_)
    intro i hop _
    constructor <;> simp [Instruction.takes, hop]

end Home

end MiniLua

import MiniLua.Proofs.Chunk.Reading

/-!
What is read back from the binary form of a prototype: the same tree of prototypes, up to handles.
-/

namespace MiniLua

namespace Binary

open Effects Reader

variable {S : Prop} {h h' : Heap}

/-- Constants of two heaps that mean the same. -/
def SameConstant (S : Prop) (h h' : Heap) : Value → Value → Prop
  | .string n, w => ∃ m, w = .string m ∧ (S → h'.bytes? m = h.bytes? n)
  | v, w => w = v

theorem toUInt64_mod (n : UInt64) : (n.toNat % Nat.pow 256 8).toUInt64 = n := by
  rw [Nat.mod_eq_of_lt n.toNat_lt]
  exact UInt64.ofNat_toNat

theorem reads_constant {v : Value} {bytes : Bytes} (hv : constantBytes h v = .ok bytes)
    (hlength : constantLength h v < maxLength) :
    Reads S (constantLength h v ≤ maxString) Reader.constant bytes
      fun h' w ↦ SameConstant S h h' v w := by
  have hpure (v : Value) (hv : constantLength h v = 0) (hs : ∀ h', SameConstant S h h' v v) :
      Reads S (constantLength h v ≤ maxString) (pure v) [] fun h' w ↦
        SameConstant S h h' v w := by
    refine ((Reads.pure v).mono fun h' w hw ↦ hw ▸ hs h').congr ?_
    simp [hv]
  unfold Reader.constant
  match v with
  | .nil =>
    cases hv
    exact (reads_byte tagNil).bind_always (hpure .nil rfl fun _ ↦ rfl)
  | .bool false =>
    cases hv
    exact (reads_byte tagFalse).bind_always (hpure (.bool false) rfl fun _ ↦ rfl)
  | .bool true =>
    cases hv
    exact (reads_byte tagTrue).bind_always (hpure (.bool true) rfl fun _ ↦ rfl)
  | .int i =>
    cases hv
    have hread := (reads_number (S := S) 8 i.toUInt64.toNat).bind_always
      (f := fun n ↦ pure (Value.int n.toUInt64.toInt64)) (by
        rw [toUInt64_mod]
        exact hpure (.int i) rfl fun _ ↦ rfl)
    rw [List.append_nil] at hread
    exact (reads_byte tagInt).bind_always hread
  | .float bits =>
    cases hv
    have hread := (reads_number (S := S) 8 bits.toNat).bind_always
      (f := fun n ↦ pure (Value.float n.toUInt64)) (by
        rw [toUInt64_mod]
        exact hpure (.float bits) rfl fun _ ↦ rfl)
    rw [List.append_nil] at hread
    exact (reads_byte tagFloat).bind_always hread
  | .string n =>
    cases hn : h.bytes? n with
    | none => simp only [constantBytes, hn, reduceCtorEq] at hv
    | some s =>
      simp only [constantBytes, hn, Except.ok.injEq] at hv
      have hs : constantLength h (.string n) = s.length := by
        simp [constantLength, Heap.stringOf?, hn]
      rw [hs] at hlength ⊢
      subst hv
      have hintern := ((reads_intern (S := S) s).bind (c := [])
        (f := fun m ↦ pure (Value.string m)) (Q := fun h' w ↦ SameConstant S h h' (.string n) w)
        fun m _ ↦ (Reads.pure (Value.string m)).mono fun h' w hw hm ↦
          ⟨m, hw, fun hsound ↦ (hm hsound).trans hn.symm⟩).congr (and_self_iff (a := True))
      have hread := (reads_string maxString hlength "string").bind_eq
        (f := fun s ↦ do pure (Value.string (← intern s))) hintern
      rw [List.append_nil, List.append_nil] at hread
      exact (reads_byte tagString).bind_always (hread.congr (by simp))
  | .table _ | .closure _ | .native _ => cases hv

theorem ofNat_toNat (i : Instruction) : Instruction.ofNat i.toNat = i := by
  obtain ⟨op, a, b, c⟩ := i
  have ha := a.toNat_lt
  have hb := b.toNat_lt
  have hc := c.toNat_lt
  have hop := op.toNat_lt
  simp only [Instruction.ofNat, Instruction.wide, Instruction.toNat, Instruction.x,
    Instruction.wideLimit, Nat.toUInt8_eq, Instruction.mk.injEq, ← UInt8.toNat_inj,
    UInt8.toNat_ofNat']
  omega

theorem reads_instruction {i : Instruction} (hi : i.opcode?.isSome) :
    Reads S True Reader.instruction (instructionBytes i) fun _ j ↦ j = i := by
  have hvalue : ofLittleEndian (instructionBytes i) = i.toNat := by
    simp only [ofLittleEndian, instructionBytes, List.foldr_cons, List.foldr_nil,
      Instruction.toNat, Instruction.x, Instruction.wideLimit]
    omega
  have hnumber := (reads_take (S := S) (n := (instructionBytes i).length) rfl).bind_always
    (f := fun bytes ↦ Pure.pure (ofLittleEndian bytes)) (Reads.pure _)
  rw [List.append_nil, hvalue] at hnumber
  have hread := hnumber.bind_always (F := True) (c := []) (Q := fun _ j ↦ j = i)
    (f := fun n ↦ do
      let i := Instruction.ofNat n
      if i.opcode?.isNone then bad (.opcode i.op)
      return i) ?_
  · rwa [List.append_nil] at hread
  · dsimp only
    rw [ofNat_toNat, if_neg (by simpa using Option.isSome_iff_ne_none.mp hi)]
    exact Reads.pure i

/-- The capture that is read back: its number has two bytes. -/
def keptCapture : Capture → Capture
  | .cell n => .cell (n % 0x10000)
  | .upvalue n => .upvalue (n % 0x10000)

theorem reads_capture (c : Capture) :
    Reads S True Reader.capture (captureBytes c) fun _ d ↦ d = keptCapture c := by
  cases c with
  | cell n =>
    have hread := (reads_number (S := S) 2 n).bind_always
      (f := fun n ↦ pure (Capture.cell n)) (Reads.pure _)
    rw [List.append_nil] at hread
    exact (reads_byte tagCell).bind_always hread
  | upvalue n =>
    have hread := (reads_number (S := S) 2 n).bind_always
      (f := fun n ↦ pure (Capture.upvalue n)) (Reads.pure _)
    rw [List.append_nil] at hread
    exact (reads_byte tagUpvalue).bind_always hread

theorem reads_allocProto (p : Prototype) :
    Reads S True (allocProto p) [] fun h n ↦ h.protos[n]? = some p := by
  refine ⟨fun _ heap rest hs ↦ ⟨_, _, rfl, .allocProto heap p, hs, fun h hext ↦ ?_⟩, ?_⟩
  · exact hext.protos (Heap.protos_allocProto heap p)
  · exact fun h ↦ absurd trivial h

/-- A list in its counted form, and what follows it. -/
theorem reads_list {α β γ : Type} {item : Reader α} {written : β → Bytes} {ok : β → Prop}
    {R : β → Heap → α → Prop} {xs : List β} {f : Nat → List α → Reader γ} {F : Prop}
    {bytes : Bytes} {Q : Heap → γ → Prop} {limit : Nat} {what : String}
    (hsize : xs.length < maxLength) (h : ∀ x ∈ xs, Reads S (ok x) item (written x) (R x))
    (hf : ∀ ys, ys.length = xs.length → Reads S F (f xs.length ys) bytes fun h c ↦
      List.Forall₂ (fun x y ↦ R x h y) xs ys → Q h c) :
    Reads S (xs.length ≤ limit ∧ (∀ x ∈ xs, ok x) ∧ F)
      (do
        let n ← count limit what
        f n (← many item n []))
      (littleEndian 4 xs.length ++ (xs.flatMap written ++ bytes)) Q := by
  refine (reads_count hsize what).bind_eq ((reads_many h []).bind fun ys ⟨_, zs, hzs, hrel⟩ ↦ ?_)
  obtain rfl : ys = zs := hzs
  refine (hf ys hrel.length_eq.symm).mono ?_
  rintro h c hc ⟨zs, hzs, hrel⟩
  obtain rfl : ys = zs := hzs
  exact hc hrel

theorem reads_many_always {α β : Type} {item : Reader α} {written : β → Bytes} {v : β → α}
    {xs : List β} (h : ∀ x ∈ xs, Reads S True item (written x) fun _ a ↦ a = v x) :
    Reads S True (many item xs.length []) (xs.flatMap written) fun _ as ↦
      as = xs.map v := by
  refine ((reads_many h []).mono ?_).congr (by simp)
  rintro - as ⟨ys, rfl, hys⟩
  have hmap {xs : List β} {ys : List α} (hys : List.Forall₂ (fun x y ↦ y = v x) xs ys) :
      ys = xs.map v := by
    induction hys with
    | nil => rfl
    | cons hy _ ih => rw [hy, List.map_cons, ih]
  exact hmap hys

/-- A list of items that are always read, and with known values. -/
theorem reads_list_always {α β γ : Type} {item : Reader α} {written : β → Bytes} {v : β → α}
    {xs : List β} {f : Nat → List α → Reader γ} {F : Prop} {bytes : Bytes}
    {Q : Heap → γ → Prop} {limit : Nat} {what : String} (hsize : xs.length < maxLength)
    (h : ∀ x ∈ xs, Reads S True item (written x) fun _ a ↦ a = v x)
    (hf : Reads S F (f xs.length (xs.map v)) bytes Q) :
    Reads S (xs.length ≤ limit ∧ F)
      (do
        let n ← count limit what
        f n (← many item n []))
      (littleEndian 4 xs.length ++ (xs.flatMap written ++ bytes)) Q :=
  (reads_count hsize what).bind_eq ((reads_many_always h).bind_always hf)

/-- The bytes of what could be written. -/
def written (r : Except WriteError Bytes) : Bytes := r.toOption.getD []

theorem flatMap_of_written {β : Type} {f : β → Except WriteError Bytes} {xs : List β}
    {items : List Bytes} (h : List.Forall₂ (fun x c ↦ f x = .ok c) xs items) :
    items.length = xs.length ∧ items.flatMap id = (xs.flatMap fun x ↦ written (f x)) ∧
      ∀ x ∈ xs, f x = .ok (written (f x)) := by
  induction h with
  | nil => exact ⟨rfl, rfl, List.forall_mem_nil _⟩
  | cons hx _ ih =>
    obtain ⟨hlength, hflat, hok⟩ := ih
    refine ⟨congrArg (· + 1) hlength, ?_, List.forall_mem_cons.mpr ⟨?_, hok⟩⟩
    · rw [List.flatMap_cons, List.flatMap_cons, hflat, hx]
      rfl
    · rw [hx]
      rfl

theorem mapM_eq_ok {α β ε : Type} {f : α → Except ε β} {xs : List α} {ys : List β} :
    xs.mapM f = .ok ys ↔ List.Forall₂ (fun x y ↦ f x = .ok y) xs ys := by
  induction xs generalizing ys with
  | nil =>
    rw [List.forall₂_nil_left_iff, List.mapM_nil]
    constructor
    · rintro ⟨⟩
      rfl
    · rintro rfl
      rfl
  | cons x xs ih =>
    rw [List.forall₂_cons_left_iff, List.mapM_cons]
    constructor
    · intro h
      cases hx : f x with
      | error e =>
        rw [hx] at h
        cases h
      | ok y =>
        cases hxs : xs.mapM f with
        | error e =>
          rw [hx, hxs] at h
          cases h
        | ok zs =>
          rw [hx, hxs] at h
          cases h
          exact ⟨y, zs, rfl, ih.mp hxs, rfl⟩
    · rintro ⟨y, zs, hx, hxs, rfl⟩
      rw [hx, ih.mpr hxs]
      rfl

/-- The bytes of a prototype, with any byte for its flag. -/
def flaggedBytes (p : Prototype) (flag : UInt8) (constants nested : List Bytes) : Bytes :=
  byteString (Bytes.ofText p.name) ++ p.arity.toUInt8 :: flag :: littleEndian 2 p.cellCount ++
    listBytes constants id ++ listBytes p.code.toList instructionBytes ++
    listBytes p.lines.toList (littleEndian 4) ++ listBytes p.captures.toList captureBytes ++
    listBytes nested id

theorem protoBytes_eq_ok {depth i : Nat} {bytes : Bytes} :
    protoBytes h (depth + 1) i = .ok bytes ↔ ∃ p constants nested, h.protos[i]? = some p ∧
      List.Forall₂ (fun v c ↦ constantBytes h v = .ok c) p.constants.toList constants ∧
      List.Forall₂ (fun j c ↦ protoBytes h depth j = .ok c) p.protos.toList nested ∧
      bytes = flaggedBytes p p.variadic.toUInt8 constants nested := by
  rw [protoBytes]
  simp only [← mapM_eq_ok]
  cases hp : h.protos[i]? with
  | none =>
    constructor
    · rintro ⟨⟩
    · rintro ⟨p, constants, nested, hp, -⟩
      cases hp
  | some p =>
    constructor
    · intro hbytes
      cases hconstants : p.constants.toList.mapM (constantBytes h) with
      | error e =>
        simp only [hconstants] at hbytes
        cases hbytes
      | ok constants =>
        cases hnested : p.protos.toList.mapM (protoBytes h depth) with
        | error e =>
          simp only [hconstants, hnested] at hbytes
          cases hbytes
        | ok nested =>
          simp only [hconstants, hnested] at hbytes
          cases hbytes
          exact ⟨p, constants, nested, rfl, hconstants, hnested, rfl⟩
    · rintro ⟨q, constants, nested, hq, hconstants, hnested, rfl⟩
      cases hq
      simp only [hconstants, hnested]
      rfl

/-- Prototypes of two heaps with the same parts, the numbers among them as far as their fields
reach. -/
def SameTree (S : Prop) (h h' : Heap) : Nat → Nat → Nat → Prop
  | 0, _, _ => False
  | depth + 1, i, j =>
    ∃ p q, h.protos[i]? = some p ∧ h'.protos[j]? = some q ∧ q.name = p.name ∧ q.arity = p.arity ∧
      q.variadic = p.variadic ∧ q.cellCount = p.cellCount ∧ q.code = p.code ∧
      q.lines = p.lines.map (· % maxLength) ∧ q.captures = p.captures.map keptCapture ∧
      List.Forall₂ (SameConstant S h h') p.constants.toList q.constants.toList ∧
      List.Forall₂ (SameTree S h h' depth) p.protos.toList q.protos.toList

theorem forall₂_of_exists {α β : Type} {R : α → β → Prop} {xs : List α} (h : ∀ x ∈ xs, ∃ y, R x y) :
    ∃ ys, List.Forall₂ R xs ys := by
  induction xs with
  | nil => exact ⟨[], .nil⟩
  | cons x xs ih =>
    obtain ⟨⟨y, hy⟩, hxs⟩ := List.forall_mem_cons.mp h
    obtain ⟨ys, hys⟩ := ih hxs
    exact ⟨y :: ys, .cons hy hys⟩

/-- The constants of a prototype have bytes. -/
def Writable (h : Heap) (p : Prototype) : Prop :=
  ∀ v ∈ p.constants.toList, ∃ bytes, constantBytes h v = .ok bytes

theorem protoBytes_of_tree {e i : Nat} (htree : h.Tree (Writable h) e i) :
    ∃ bytes, protoBytes h e i = .ok bytes := by
  induction e generalizing i with
  | zero => exact htree.elim
  | succ e ih =>
    obtain ⟨p, hp, hform, hchildren⟩ := htree
    obtain ⟨constants, hconstants⟩ := forall₂_of_exists hform
    obtain ⟨nested, hnested⟩ := forall₂_of_exists fun j hj ↦ ih (hchildren j hj)
    exact ⟨_, protoBytes_eq_ok.mpr ⟨p, constants, nested, hp, hconstants, hnested, rfl⟩⟩

theorem reads_proto {e i : Nat} {bytes : Bytes}
    (htree : h.Tree (fun p ↦ p.Encodable h ∧ p.Within .format h) e i)
    (hbytes : protoBytes h e i = .ok bytes) (d : Nat) :
    Reads S (h.Tree (·.Within .loader h) d i) (proto d) bytes fun h' j ↦
      SameTree S h h' e i j := by
  induction d generalizing e i bytes with
  | zero => exact Reads.throw_size _
  | succ d ih =>
    cases e with
    | zero => exact htree.elim
    | succ e =>
      obtain ⟨p, hp, ⟨hform, hsize⟩, hchildren⟩ := htree
      have hnested : h.Tree (·.Within .loader h) (d + 1) i ↔
          p.Within .loader h ∧ ∀ j ∈ p.protos.toList, h.Tree (·.Within .loader h) d j := by
        simp [Heap.Tree, hp]
      obtain ⟨p', constants, nested, hp', hconstants, hprotos, rfl⟩ := protoBytes_eq_ok.mp hbytes
      obtain rfl : p = p' := Option.some.inj (hp.symm.trans hp')
      obtain ⟨hcount, hflat, hitems⟩ := flatMap_of_written hconstants
      obtain ⟨hcount', hflat', hitems'⟩ := flatMap_of_written hprotos
      simp only [flaggedBytes, listBytes, List.append_assoc, List.cons_append, hflat, hflat',
        hcount, hcount']
      rw [← List.append_nil (p.protos.toList.flatMap _)]
      have hlist {α : Type} {xs : Array α} (h : xs.size ≤ maxLength - 1) :
          xs.toList.length < maxLength := by
        rw [Array.length_toList]
        exact Nat.lt_of_le_pred (by decide) h
      have hcode := hlist hsize.code
      have hlines : p.lines.toList.length = 0 ∨ p.lines.toList.length = p.code.toList.length := by
        simpa only [Array.length_toList] using hform.lines
      unfold proto
      refine Reads.congr
        (F := (Bytes.ofText p.name).length ≤ maxName ∧
          p.constants.toList.length ≤ maxConstants ∧
          (∀ v ∈ p.constants.toList, constantLength h v ≤ maxString) ∧
          p.code.toList.length ≤ maxCode ∧ p.lines.toList.length ≤ maxCode ∧
          p.captures.toList.length ≤ maxCaptures ∧ p.protos.toList.length ≤ maxProtos ∧
          (∀ j ∈ p.protos.toList, h.Tree (·.Within .loader h) d j) ∧ True) ?_ ?_
      · refine (reads_string maxName (Nat.lt_of_le_pred (by decide) hsize.name) _).bind_eq ?_
        rw [Bytes.toText?_ofText]
        refine Reads.pure_bind ?_
        refine (reads_byte _).bind_always ?_
        refine (reads_byte _).bind_always ?_
        refine (reads_number 2 _).bind_always ?_
        have hcells : p.cellCount % Nat.pow 256 2 = p.cellCount := Nat.mod_eq_of_lt hform.cells
        have harity : p.arity.toUInt8.toNat = p.arity := by
          rw [Nat.toUInt8_eq, UInt8.toNat_ofNat', Nat.mod_eq_of_lt hform.arity]
        rw [hcells, harity, if_neg (Nat.not_lt.mpr hform.arity_le)]
        refine reads_list (R := fun v h' w ↦ SameConstant S h h' v w)
          (hlist hsize.constants) (fun v hv ↦ ?_) fun constants _ ↦ ?_
        · exact reads_constant (hitems v hv)
            (Nat.lt_of_le_pred (by decide) (hsize.strings v hv))
        refine reads_list_always (v := id) hcode
          (fun i hi ↦ reads_instruction (hform.opcodes i hi)) ?_
        refine (reads_count (by omega) _).bind_eq ?_
        rw [if_neg (by omega)]
        refine (reads_many_always (v := (· % maxLength))
          fun n _ ↦ reads_number 4 n).bind_always ?_
        refine reads_list_always (v := keptCapture) (hlist hsize.captures)
          (fun c _ ↦ reads_capture c) ?_
        refine reads_list (R := fun k h' j ↦ SameTree S h h' e k j) (hlist hsize.protos)
          (fun j hj ↦ ih (hchildren j hj) (hitems' j hj)) fun protos _ ↦ ?_
        refine (reads_allocProto _).mono fun h' j hj hprotos hconstants ↦ ?_
        refine ⟨p, _, hp, hj, rfl, rfl, ?_, rfl, ?_, ?_, ?_, hconstants, hprotos⟩
        · cases p.variadic <;> rfl
        · simp
        · exact (Array.ext' (by simp))
        · exact (Array.ext' (by simp))
      · rw [hnested]
        simp only [Array.length_toList]
        constructor
        · rintro ⟨hname, hconstants, hstrings, hcode, -, hcaptures, hprotos, hall, -⟩
          exact ⟨⟨hname, hconstants, hstrings, hcode, hcaptures, hprotos⟩, hall⟩
        · rintro ⟨⟨hname, hconstants, hstrings, hcode, hcaptures, hprotos⟩, hall⟩
          refine ⟨hname, hconstants, hstrings, hcode, ?_, hcaptures, hprotos, hall, trivial⟩
          obtain hzero | hsame := hform.lines
          · exact hzero ▸ Nat.zero_le _
          · exact hsame ▸ hcode

theorem reads_main {e i : Nat} {bytes : Bytes}
    (htree : h.Tree (fun p ↦ p.Encodable h ∧ p.Within .format h) e i)
    (hbytes : protoBytes h e i = .ok bytes) :
    Reads S (h.Tree (·.Within .loader h) (maxNesting + 1) i) Reader.main (version :: bytes)
      fun h' j ↦ SameTree S h h' e i j :=
  (reads_byte version).bind_always (reads_proto htree hbytes (maxNesting + 1))

end Binary

open Binary

theorem writeChunk_eq_ok {h : Heap} {i : Nat} {dump : Bytes} :
    writeChunk h i = .ok dump ↔
      ∃ bytes, protoBytes h (h.protos.size + 1) i = .ok bytes ∧ dump = signature ++ version :: bytes := by
  rw [writeChunk]
  cases hbytes : protoBytes h (h.protos.size + 1) i with
  | error e =>
    constructor
    · rintro ⟨⟩
    · rintro ⟨_, h, -⟩
      cases h
  | ok bytes =>
    constructor
    · rintro ⟨⟩
      exact ⟨bytes, rfl, rfl⟩
    · rintro ⟨_, h, rfl⟩
      cases h
      rfl

theorem writeChunk_of_tree {h : Heap} {d i : Nat} (htree : h.Tree (·.Encodable h) d i) :
    ∃ dump, writeChunk h i = .ok dump := by
  obtain ⟨bytes, hbytes⟩ := protoBytes_of_tree
    ((htree.imp fun _ hp ↦ hp.constants).of_any.mono (Nat.le_succ _))
  exact ⟨_, writeChunk_eq_ok.mpr ⟨bytes, hbytes, rfl⟩⟩

/-- A chunk that was written is read back as the same tree if that keeps to the limits of the
reader, and is refused for a size otherwise. -/
theorem readChunk_of_writeChunk {h : Heap} {d i : Nat} {dump : Bytes}
    (htree : h.Tree (fun p ↦ p.Encodable h ∧ p.Within .format h) d i)
    (hdump : writeChunk h i = .ok dump) :
    ∃ body, binaryBody? dump = some body ∧
      (h.Tree (·.Within .loader h) (Reader.maxNesting + 1) i → ∀ heap, ∃ j heap',
        readChunk body heap = .ok j heap' ∧ heap.Extends heap' ∧
          SameTree heap.strings.Sound h heap' (h.protos.size + 1) i j) ∧
      (¬ h.Tree (·.Within .loader h) (Reader.maxNesting + 1) i → ∀ heap, ∃ fault heap',
        readChunk body heap = .error (.size fault) heap') := by
  have htree := htree.of_any.mono (Nat.le_succ h.protos.size)
  obtain ⟨bytes, hbytes⟩ := protoBytes_of_tree (htree.imp fun _ hp ↦ hp.1.constants)
  rw [writeChunk, hbytes] at hdump
  cases hdump
  refine ⟨version :: bytes, rfl, fun hfits heap ↦ ?_, fun hnot heap ↦ ?_⟩
  · obtain ⟨j, heap', hrun, hext, -, hsame⟩ := (reads_main htree hbytes).accepts hfits heap [] id
    rw [List.append_nil] at hrun
    exact ⟨j, heap', by rw [readChunk, hrun], hext, hsame heap' (.refl _)⟩
  · obtain ⟨fault, s, hrun⟩ :=
      (reads_main (S := False) htree hbytes).rejects hnot heap [] False.elim
    rw [List.append_nil] at hrun
    exact ⟨fault, s.heap, by rw [readChunk, hrun]⟩

end MiniLua

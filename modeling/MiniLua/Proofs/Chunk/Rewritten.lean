import MiniLua.Proofs.Chunk.Truncated

/-!
What a reader makes of a binary chunk is written as the bytes the reader took, but for the flags of
variadic functions: any byte but zero is read as a set flag, and a set flag is written as one.
-/

namespace MiniLua

open Binary

/-- `found` are the bytes of a prototype and of those nested in it, with any byte but zero for a flag
that is set; `dump` are the same bytes with a one for each of these. -/
def Heap.Respells (h : Heap) : Nat → Nat → Bytes → Bytes → Prop
  | 0, _, _, _ => False
  | depth + 1, i, found, dump =>
    ∃ p flag constants nested, h.protos[i]? = some p ∧ p.variadic = (flag != 0) ∧
      List.Forall₂ (fun v c ↦ constantBytes h v = .ok c) p.constants.toList constants ∧
      List.Forall₂ (fun j n ↦ h.Respells depth j n.1 n.2) p.protos.toList nested ∧
      found = flaggedBytes p flag constants (nested.map Prod.fst) ∧
      dump = flaggedBytes p (if flag = 0 then 0 else 1) constants (nested.map Prod.snd)

namespace Binary

open Effects Reader

variable {α β : Type}

/-- More levels than are needed make no difference. -/
theorem protoBytes_mono {h : Heap} {d e i : Nat} {bytes : Bytes} (hbytes : protoBytes h d i = .ok bytes)
    (hde : d ≤ e) : protoBytes h e i = .ok bytes := by
  induction d generalizing e i bytes with
  | zero => cases hbytes
  | succ d ih =>
    obtain ⟨e, rfl⟩ := Nat.exists_eq_succ_of_ne_zero (by omega : e ≠ 0)
    obtain ⟨p, constants, nested, hp, hconstants, hnested, rfl⟩ := protoBytes_eq_ok.mp hbytes
    refine protoBytes_eq_ok.mpr ⟨p, constants, nested, hp, hconstants, ?_, rfl⟩
    exact hnested.imp fun j c hc ↦ ih hc (by omega)

theorem tree_of_protoBytes {h : Heap} {d i : Nat} {bytes : Bytes} (hbytes : protoBytes h d i = .ok bytes) :
    h.Tree (Writable h) d i := by
  induction d generalizing i bytes with
  | zero => cases hbytes
  | succ d ih =>
    obtain ⟨p, constants, nested, hp, hconstants, hnested, rfl⟩ := protoBytes_eq_ok.mp hbytes
    refine ⟨p, hp, fun v hv ↦ ?_, fun j hj ↦ ?_⟩
    · exact ⟨_, (flatMap_of_written hconstants).2.2 v hv⟩
    · exact ih ((flatMap_of_written hnested).2.2 j hj)

theorem constantBytes_of_alike {h h' : Heap} {v w : Value} (hvw : h.Alike h' v w) :
    constantBytes h' w = constantBytes h v := by
  cases v with
  | string n =>
    cases w with
    | string m =>
      obtain ⟨s, hn, hm⟩ := hvw
      rw [constantBytes, constantBytes, hn, hm]
    | _ => cases hvw
  | bool b =>
    cases w <;> cases hvw
    cases b <;> rfl
  | _ =>
    cases w <;> cases hvw
    rfl

/-- A copy has the same bytes. -/
theorem protoBytes_of_copies {h h' : Heap} {d i j : Nat} {bytes : Bytes} (hcopies : h.Copies h' d i j)
    (hbytes : protoBytes h d i = .ok bytes) : protoBytes h' d j = .ok bytes := by
  induction d generalizing i j bytes with
  | zero => cases hbytes
  | succ d ih =>
    obtain ⟨p, q, hp, hq, hname, harity, hvariadic, hcells, hcode, hlines, hcaptures, hconstants,
      hnested⟩ := hcopies
    obtain ⟨p', constants, nested, hp', hwritten, hwritten', rfl⟩ := protoBytes_eq_ok.mp hbytes
    obtain rfl : p = p' := Option.some.inj (hp.symm.trans hp')
    refine protoBytes_eq_ok.mpr ⟨q, constants, nested, hq, ?_, ?_, ?_⟩
    · rw [List.forall₂_iff_get] at hconstants hwritten ⊢
      refine ⟨hconstants.1.symm.trans hwritten.1, fun n hn hn' ↦ ?_⟩
      rw [constantBytes_of_alike (hconstants.2 n (hconstants.1 ▸ hn) hn)]
      exact hwritten.2 n (hconstants.1 ▸ hn) hn'
    · rw [List.forall₂_iff_get] at hnested hwritten' ⊢
      refine ⟨hnested.1.symm.trans hwritten'.1, fun n hn hn' ↦ ?_⟩
      exact ih (hnested.2 n (hnested.1 ▸ hn) hn) (hwritten'.2 n (hnested.1 ▸ hn) hn')
    · rw [flaggedBytes, flaggedBytes, hname, harity, hvariadic, hcells, hcode, hlines, hcaptures]

/-- Whenever `m` succeeds it takes some front of the bytes, of which, and of its result, `R` holds in
every later heap. -/
def Parses (m : Reader α) (R : Heap → Bytes → α → Prop) : Prop :=
  ∀ ⦃s a t⦄, m s = .ok a t → s.heap.strings.Sound → ∃ used, s.rest = used ++ t.rest ∧
    s.heap.Extends t.heap ∧ t.heap.strings.Sound ∧ ∀ h, t.heap.Extends h → R h used a

namespace Parses

variable {m : Reader α} {f : α → Reader β} {R Q : Heap → Bytes → α → Prop}

theorem mono (hm : Parses m R) (hR : ∀ h used a, R h used a → Q h used a) : Parses m Q := by
  intro s a t h hs
  obtain ⟨used, hrest, hext, ht, ha⟩ := hm h hs
  exact ⟨used, hrest, hext, ht, fun h hh ↦ hR h used a (ha h hh)⟩

theorem pure {a : α} (ha : ∀ h, R h [] a) : Parses (Pure.pure a) R := by
  intro s b t h hs
  obtain ⟨rfl, rfl⟩ := pure_eq_ok.mp h
  exact ⟨[], rfl, .refl _, hs, fun h _ ↦ ha h⟩

theorem throw (e : LoadError) : Parses (throw e) R := fun _ _ _ h ↦ absurd h throw_ne_ok

theorem throw_bind (e : LoadError) (f : α → Reader β) {Q : Heap → Bytes → β → Prop} :
    Parses (MonadExcept.throw e >>= f) Q := by
  intro _ _ _ h
  obtain ⟨_, _, hthrow, -⟩ := bind_eq_ok.mp h
  exact absurd hthrow throw_ne_ok

theorem bind {Q : Heap → Bytes → β → Prop} (hm : Parses m R)
    (hf : ∀ a, Parses (f a) fun h back b ↦ ∀ front, R h front a → Q h (front ++ back) b) :
    Parses (m >>= f) Q := by
  intro s b t h hs
  obtain ⟨a, u, hfirst, hsecond⟩ := bind_eq_ok.mp h
  obtain ⟨front, hrest, hext, hu, ha⟩ := hm hfirst hs
  obtain ⟨back, hrest', hext', ht, hb⟩ := hf a hsecond hu
  refine ⟨front ++ back, by rw [hrest, hrest', List.append_assoc], hext.trans hext', ht, ?_⟩
  exact fun h hh ↦ hb h hh front (ha h (hext'.trans hh))

theorem map {g : α → β} {Q : Heap → Bytes → β → Prop} (hm : Parses m R)
    (hg : ∀ h used a, R h used a → Q h used (g a)) : Parses (do Pure.pure (g (← m))) Q :=
  hm.bind fun a ↦ pure fun h front ha ↦ by
    rw [List.append_nil]
    exact hg h front a ha

theorem ite {c : Prop} [Decidable c] {n : Reader α} (hm : c → Parses m R) (hn : ¬ c → Parses n R) :
    Parses (if c then m else n) R := by
  split
  · next hc => exact hm hc
  · next hc => exact hn hc

/-- What is read after a check is known to have passed it. -/
theorem checked {c : Prop} [Decidable c] {e : LoadError} {f : PUnit → Reader α}
    (hf : ¬ c → Parses (f ⟨⟩) R) : Parses (if c then MonadExcept.throw e >>= f else f ⟨⟩) R :=
  ite (fun _ ↦ throw_bind e f) hf

theorem named {name : Option String} {e : LoadError} {f : String → Reader α}
    (hf : ∀ n, name = some n → Parses (f n) R) :
    Parses (match name with
      | some name => Pure.pure name >>= f
      | none => MonadExcept.throw e >>= f) R := by
  cases name with
  | some name => exact hf name rfl
  | none => exact throw_bind e f

end Parses

theorem littleEndian_ofLittleEndian (bytes : Bytes) :
    littleEndian bytes.length (ofLittleEndian bytes) = bytes := by
  induction bytes with
  | nil => rfl
  | cons b bytes ih =>
    have hvalue : ofLittleEndian (b :: bytes) = b.toNat + 256 * ofLittleEndian bytes := rfl
    have hlt := b.toNat_lt
    rw [List.length_cons, littleEndian, hvalue,
      show (b.toNat + 256 * ofLittleEndian bytes) / 256 = ofLittleEndian bytes by omega, ih]
    congr 1
    rw [Nat.toUInt8_eq, ← UInt8.toNat_inj, UInt8.toNat_ofNat']
    omega

theorem ofLittleEndian_lt (bytes : Bytes) : ofLittleEndian bytes < Nat.pow 256 bytes.length := by
  have hmod := ofLittleEndian_littleEndian bytes.length (ofLittleEndian bytes)
  rw [littleEndian_ofLittleEndian] at hmod
  rw [hmod]
  exact Nat.mod_lt _ (Nat.pow_pos (by decide))

theorem parses_take (n : Nat) : Parses (take n) fun _ used a ↦ used = a ∧ a.length = n := by
  intro s a t h hs
  obtain ⟨hlength, hrest, hheap⟩ := take_eq_ok h
  exact ⟨a, hrest, hheap ▸ .refl _, hheap ▸ hs, fun _ _ ↦ ⟨rfl, hlength⟩⟩

theorem parses_number (bytes : Nat) :
    Parses (number bytes) fun _ used n ↦ used = littleEndian bytes n ∧ n < Nat.pow 256 bytes := by
  refine (parses_take bytes).map ?_
  rintro - used a ⟨rfl, rfl⟩
  exact ⟨(littleEndian_ofLittleEndian used).symm, ofLittleEndian_lt used⟩

theorem parses_byte : Parses byte fun _ used b ↦ used = [b] := by
  refine (parses_number 1).map ?_
  rintro - used n ⟨rfl, -⟩
  rfl

theorem parses_count (limit : Nat) (what : String) :
    Parses (count limit what) fun _ used n ↦ used = littleEndian 4 n ∧ n ≤ limit := by
  refine (parses_number 4).bind fun n ↦ .checked fun hn ↦ .pure ?_
  rintro - front ⟨rfl, -⟩
  exact ⟨List.append_nil _, Nat.le_of_not_lt hn⟩

theorem parses_string (limit : Nat) (what : String) :
    Parses (string limit what) fun _ used s ↦ used = byteString s ∧ s.length ≤ limit := by
  refine (parses_number 4).bind fun n ↦ .checked fun hn ↦ (parses_take n).mono ?_
  rintro - back s ⟨rfl, rfl⟩ front ⟨rfl, -⟩
  exact ⟨rfl, Nat.le_of_not_lt hn⟩

theorem parses_intern (s : Bytes) :
    Parses (intern s) fun h used n ↦ used = [] ∧ h.bytes? n = some s := by
  intro u n t h hu
  cases h
  exact ⟨[], rfl, .intern u.heap s, hu.intern s, fun h hh ↦ ⟨rfl, hh.bytes (Heap.bytes?_intern hu s)⟩⟩

theorem parses_allocProto (p : Prototype) :
    Parses (allocProto p) fun h used i ↦ used = [] ∧ h.protos[i]? = some p := by
  intro u i t h hu
  cases h
  exact ⟨[], rfl, .allocProto u.heap p, hu, fun h hh ↦ ⟨rfl, hh.protos (Heap.protos_allocProto u.heap p)⟩⟩

theorem parses_constant : Parses Reader.constant fun h used v ↦
    constantBytes h v = .ok used ∧ constantLength h v ≤ maxString := by
  have hshort (h : Heap) {v : Value} (hv : constantLength h v = 0) : constantLength h v ≤ maxString :=
    hv ▸ Nat.zero_le _
  refine parses_byte.bind fun tag ↦ ?_
  refine .ite (fun htag ↦ .pure ?_) fun _ ↦ ?_
  · rintro h _ rfl
    exact ⟨htag ▸ rfl, hshort h rfl⟩
  refine .ite (fun htag ↦ .pure ?_) fun _ ↦ ?_
  · rintro h _ rfl
    exact ⟨htag ▸ rfl, hshort h rfl⟩
  refine .ite (fun htag ↦ .pure ?_) fun _ ↦ ?_
  · rintro h _ rfl
    exact ⟨htag ▸ rfl, hshort h rfl⟩
  refine .ite (fun htag ↦ (parses_number 8).map ?_) fun _ ↦ ?_
  · rintro h _ n ⟨rfl, hn⟩ _ rfl
    refine ⟨?_, hshort h rfl⟩
    have hn' : n.toUInt64.toInt64.toUInt64.toNat = n := by
      rw [UInt64.toUInt64_toInt64]
      exact UInt64.toNat_ofNat_of_lt' hn
    rw [constantBytes, hn', htag]
    rfl
  refine .ite (fun htag ↦ (parses_number 8).map ?_) fun _ ↦ ?_
  · rintro h _ n ⟨rfl, hn⟩ _ rfl
    refine ⟨?_, hshort h rfl⟩
    have hn' : n.toUInt64.toNat = n := UInt64.toNat_ofNat_of_lt' hn
    rw [constantBytes, hn', htag]
    rfl
  refine .ite (fun htag ↦ ?_) fun _ ↦ .throw _
  refine (parses_string maxString "string").bind fun s ↦ (parses_intern s).map ?_
  rintro h _ n ⟨rfl, hn⟩ _ ⟨rfl, hs⟩ _ rfl
  constructor
  · rw [constantBytes, hn, htag, List.append_nil]
    rfl
  · simpa [constantLength, Heap.stringOf?, hn] using hs

theorem parses_instruction : Parses Reader.instruction fun _ used i ↦
    used = instructionBytes i ∧ i.opcode?.isSome := by
  refine (parses_number 4).bind fun n ↦ .checked fun hi ↦ .pure ?_
  rintro - front ⟨rfl, hn⟩
  refine ⟨?_, by simpa [Option.isSome_iff_ne_none] using hi⟩
  have hn : n < 4294967296 := hn
  simp only [List.append_nil, littleEndian, instructionBytes, Instruction.ofNat, Instruction.wide,
    Instruction.wideLimit, Nat.div_div_eq_div_mul]

theorem parses_capture : Parses Reader.capture fun _ used c ↦
    used = captureBytes c ∧ c.index < 0x10000 := by
  refine parses_byte.bind fun tag ↦ (parses_number 2).bind fun n ↦ ?_
  refine .ite (fun htag ↦ .pure ?_) fun _ ↦ .ite (fun htag ↦ .pure ?_) fun _ ↦ .throw _
  · rintro - front ⟨rfl, hn⟩ _ rfl
    exact ⟨by rw [List.append_nil, htag]; rfl, hn⟩
  · rintro - front ⟨rfl, hn⟩ _ rfl
    exact ⟨by rw [List.append_nil, htag]; rfl, hn⟩

theorem parses_many {item : Reader α} {R : Heap → Bytes → α → Prop} (hitem : Parses item R) (n : Nat)
    (found : List α) : Parses (many item n found) fun h used as ↦ ∃ parts items,
      as = found.reverse ++ items ∧ items.length = n ∧ used = parts.flatMap id ∧
        List.Forall₂ (R h) parts items := by
  induction n generalizing found with
  | zero => exact .pure fun h ↦ ⟨[], [], (List.append_nil _).symm, rfl, rfl, .nil⟩
  | succ n ih =>
    refine hitem.bind fun a ↦ (ih (a :: found)).mono ?_
    rintro h - as ⟨parts, items, rfl, rfl, rfl, hparts⟩ front ha
    exact ⟨front :: parts, a :: items, by simp, rfl, rfl, .cons ha hparts⟩

/-- Items that are each written in a known way. -/
theorem parses_many_written {item : Reader α} {written : α → Bytes} {P : α → Prop}
    (hitem : Parses item fun _ used a ↦ used = written a ∧ P a) (n : Nat) :
    Parses (many item n []) fun _ used as ↦
      as.length = n ∧ used = as.flatMap written ∧ ∀ a ∈ as, P a := by
  refine (parses_many hitem n []).mono ?_
  rintro - - as ⟨parts, as, rfl, hlength, rfl, hparts⟩
  refine ⟨hlength, ?_⟩
  clear hlength
  induction hparts with
  | nil => exact ⟨rfl, List.forall_mem_nil _⟩
  | cons ha _ ih =>
    obtain ⟨hbytes, hall⟩ := ih
    refine ⟨?_, List.forall_mem_cons.mpr ⟨ha.2, hall⟩⟩
    rw [List.flatMap_cons, hbytes, ha.1]
    rfl

theorem protoBytes_of_respells {h : Heap} {d i : Nat} {found dump : Bytes}
    (hrespells : h.Respells d i found dump) : protoBytes h d i = .ok dump := by
  induction d generalizing i found dump with
  | zero => exact hrespells.elim
  | succ d ih =>
    obtain ⟨p, flag, constants, nested, hp, hflag, hconstants, hnested, -, rfl⟩ := hrespells
    refine protoBytes_eq_ok.mpr ⟨p, constants, nested.map Prod.snd, hp, hconstants, ?_, ?_⟩
    · exact List.forall₂_map_right_iff.mpr (hnested.imp fun j n hn ↦ ih hn)
    · have hwritten : p.variadic.toUInt8 = if flag = 0 then 0 else 1 := by
        rw [hflag]
        by_cases hzero : flag = 0
        · rw [if_pos hzero, hzero]
          rfl
        · rw [if_neg hzero, bne_iff_ne.mpr hzero]
          rfl
      rw [hwritten]

/-- Witnesses for each pair of two lists, put beside the first list. -/
theorem exists_zip {γ : Type} {R : α → β → γ → Prop} {as : List α} {bs : List β}
    (h : List.Forall₂ (fun a b ↦ ∃ c, R a b c) as bs) :
    ∃ ps : List (α × γ), ps.map Prod.fst = as ∧ List.Forall₂ (fun b p ↦ R p.1 b p.2) bs ps := by
  induction h with
  | nil => exact ⟨[], rfl, .nil⟩
  | cons hab _ ih =>
    obtain ⟨c, hc⟩ := hab
    obtain ⟨ps, rfl, hps⟩ := ih
    exact ⟨(_, c) :: ps, rfl, .cons hc hps⟩

theorem parses_proto (depth : Nat) : Parses (proto depth) fun h used i ↦
    (∃ dump, h.Respells depth i used dump) ∧ h.Tree (·.Loadable h) depth i := by
  induction depth with
  | zero => exact .throw _
  | succ depth ih =>
    unfold proto
    refine (parses_string maxName _).bind fun bytes ↦ .named fun name hname ↦ ?_
    refine parses_byte.bind fun arity ↦ parses_byte.bind fun flag ↦ ?_
    refine (parses_number 2).bind fun cellCount ↦ .checked fun harity ↦ ?_
    refine (parses_count maxConstants _).bind fun constantCount ↦ ?_
    refine (parses_many parses_constant constantCount []).bind fun constants ↦ ?_
    refine (parses_count maxCode _).bind fun codeCount ↦ ?_
    refine (parses_many_written parses_instruction codeCount).bind fun code ↦ ?_
    refine (parses_count maxCode _).bind fun lineCount ↦ .checked fun hlines ↦ ?_
    refine (parses_many_written (parses_number 4) lineCount).bind fun lines ↦ ?_
    refine (parses_count maxCaptures _).bind fun captureCount ↦ ?_
    refine (parses_many_written parses_capture captureCount).bind fun captures ↦ ?_
    refine (parses_count maxProtos _).bind fun protoCount ↦ ?_
    refine (parses_many ih protoCount []).bind fun protos ↦ (parses_allocProto _).mono ?_
    rintro h _ i ⟨rfl, hp⟩ _ ⟨parts, protos, rfl, rfl, rfl, hprotos⟩ _ ⟨rfl, hprotoCount⟩
      _ ⟨rfl, rfl, hcaptures⟩ _ ⟨rfl, hcaptureCount⟩ _ ⟨rfl, rfl, hlineBytes⟩ _ ⟨rfl, hlineCount⟩
      _ ⟨rfl, rfl, hcode⟩ _ ⟨rfl, hcodeCount⟩ _ ⟨written, constants, rfl, rfl, rfl, hconstants⟩
      _ ⟨rfl, hconstantCount⟩ _ ⟨rfl, hcells⟩ _ rfl _ rfl _ ⟨rfl, hlength⟩
    obtain ⟨hloadable, hspelled⟩ := (List.forall₂_and_left _ _).mp (hprotos.flip.imp fun _ _ h ↦ h.symm)
    obtain ⟨nested, rfl, hnested⟩ := exists_zip hspelled.flip
    have hwritten : List.Forall₂ (fun v c ↦ constantBytes h v = .ok c) constants written :=
      hconstants.flip.imp fun _ _ h ↦ h.1
    have hconstants : ∀ v ∈ constants, (∃ bytes, constantBytes h v = .ok bytes) ∧
        constantLength h v ≤ maxString :=
      ((List.forall₂_and_left (R := fun _ _ ↦ True) _ _).mp
        (hconstants.flip.imp fun _ _ h ↦ ⟨⟨⟨_, h.1⟩, h.2⟩, trivial⟩)).1
    obtain rfl : Bytes.ofText name = bytes := Bytes.ofText_of_toText? hname
    constructor
    · refine ⟨_, _, flag, written, nested, hp, rfl, hwritten, hnested, ?_, rfl⟩
      simp only [flaggedBytes, listBytes, hwritten.length_eq, hnested.length_eq, List.length_map,
        List.append_assoc, List.cons_append, List.nil_append, List.append_nil]
      simp
    · refine ⟨_, hp, ⟨⟨hcode, fun v hv ↦ (hconstants v hv).1, arity.toNat_lt, hcells,
        Nat.le_of_not_lt harity, ?_⟩, ⟨hlength, hconstantCount, fun v hv ↦ (hconstants v hv).2, hcodeCount,
        hcaptureCount, hprotoCount⟩, hlineBytes, hcaptures⟩, hloadable⟩
      simp only [List.size_toArray]
      omega

theorem parses_main : Parses Reader.main fun h used i ↦ ∃ bytes, used = version :: bytes ∧
    (∃ dump, h.Respells (maxNesting + 1) i bytes dump) ∧ h.Tree (·.Loadable h) (maxNesting + 1) i := by
  refine parses_byte.bind fun found ↦ .checked fun hfound ↦ (parses_proto _).mono ?_
  rintro h bytes i hi _ rfl
  exact ⟨bytes, by rw [not_not.mp hfound]; rfl, hi⟩

end Binary

theorem writeChunk_of_protoBytes {h : Heap} {d i : Nat} {bytes : Bytes}
    (hbytes : protoBytes h d i = .ok bytes) : writeChunk h i = .ok (signature ++ version :: bytes) := by
  obtain ⟨bytes', hbytes'⟩ := protoBytes_of_tree
    ((tree_of_protoBytes hbytes).of_any.mono (Nat.le_succ h.protos.size))
  obtain rfl : bytes = bytes' := Except.ok.inj
    ((protoBytes_mono hbytes (Nat.le_max_left d (h.protos.size + 1))).symm.trans
      (protoBytes_mono hbytes' (Nat.le_max_right d (h.protos.size + 1))))
  exact writeChunk_eq_ok.mpr ⟨bytes, hbytes', rfl⟩

theorem main_of_decode {body : Bytes} {name : String} {s t : State} {j : Nat}
    (h : Loading.decode (signature ++ body) name s = .ok j t) :
    ∃ rest, Reader.main ⟨s.heap, body⟩ = .ok j ⟨t.heap, rest⟩ := by
  rw [Loading.decode, binaryBody?_eq_some.mpr rfl] at h
  dsimp only at h
  rw [readChunk] at h
  cases hmain : Reader.main ⟨s.heap, body⟩ with
  | error e u =>
    rw [hmain] at h
    cases h
  | ok i u =>
    rw [hmain] at h
    cases h
    exact ⟨u.rest, rfl⟩

/-- What is loaded of a binary chunk is dumped as the bytes that were taken, but for the flags, and
what is loaded of that dump is dumped as the same bytes again. -/
theorem writeChunk_of_decode {bytes : Bytes} {name : String} {s t : State} {j : Nat}
    (hs : s.heap.strings.Sound) (hbinary : signature <+: bytes)
    (hdecode : Loading.decode bytes name s = .ok j t) :
    ∃ used dump rest, bytes = signature ++ version :: used ++ rest ∧
      Reader.main ⟨s.heap, version :: used ++ rest⟩ = .ok j ⟨t.heap, rest⟩ ∧
      t.heap.Respells (Reader.maxNesting + 1) j used dump ∧
      writeChunk t.heap j = .ok (signature ++ version :: dump) ∧
      ∀ s' name', s'.heap.strings.Sound → ∃ j' heap,
        Loading.decode (signature ++ version :: dump) name' s' = .ok j' { s' with heap } ∧
          writeChunk heap j' = .ok (signature ++ version :: dump) := by
  obtain ⟨body, rfl⟩ := hbinary
  obtain ⟨rest, hmain⟩ := main_of_decode hdecode
  obtain ⟨_, hbody, -, -, hparsed⟩ := parses_main hmain hs
  obtain ⟨used, rfl, ⟨dump, hrespells⟩, hloadable⟩ := hparsed t.heap (.refl _)
  obtain rfl : body = version :: used ++ rest := hbody
  have hbytes := protoBytes_of_respells hrespells
  have hdump := writeChunk_of_protoBytes hbytes
  refine ⟨used, dump, rest, (List.append_assoc _ _ _).symm, hmain, hrespells, hdump, fun s' name' hs' ↦ ?_⟩
  obtain ⟨j', heap, hdecode', -, hcopies⟩ := decode_copies hloadable hdump hs' name'
  exact ⟨j', heap, hdecode', writeChunk_of_protoBytes (protoBytes_of_copies hcopies hbytes)⟩

/-- A function without code and one nested in it, both with odd flags, and a byte after them. -/
def oddFlags : Bytes :=
  signature ++ version :: (flaggedBytes ⟨"m", 0, true, 0, #[], #[], #[0], #[], #[]⟩ 7 []
    [flaggedBytes ⟨"f", 0, true, 0, #[], #[], #[], #[], #[]⟩ 2 [] []] ++ [9])

/-- The flags are ones in its dump, and the last byte is gone. -/
theorem writeChunk_of_decode_oddFlags : ∃ j t dump,
    Loading.decode oddFlags "=a" (.start {} .empty false) = .ok j t ∧
      (∃ used, oddFlags = signature ++ version :: used ++ [9] ∧
        t.heap.Respells (Reader.maxNesting + 1) j used dump) ∧
      writeChunk t.heap j = .ok (signature ++ version :: dump) := by
  obtain ⟨j, t, hdecode, hmain⟩ : ∃ j t,
      Loading.decode oddFlags "=a" (.start {} .empty false) = .ok j t ∧
        Reader.main ⟨(State.start {} .empty false).heap, oddFlags.drop 4⟩ = .ok j ⟨t.heap, [9]⟩ :=
    ⟨_, _, rfl, rfl⟩
  have hbinary : signature <+: oddFlags := ⟨_, rfl⟩
  obtain ⟨used, dump, rest, hbytes, hread, hrespells, hdump, -⟩ :=
    writeChunk_of_decode StringPool.sound_empty hbinary hdecode
  have hdrop : oddFlags.drop 4 = version :: used ++ rest := by
    rw [hbytes, List.append_assoc]
    rfl
  rw [hdrop] at hmain
  have hsame := hread.symm.trans hmain
  injection hsame with _ hsource
  injection hsource with _ hrest
  exact ⟨j, t, dump, hdecode, ⟨used, hrest ▸ hbytes, hrespells⟩, hdump⟩

end MiniLua

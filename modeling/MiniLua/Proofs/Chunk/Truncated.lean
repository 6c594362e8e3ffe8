import MiniLua.Proofs.Chunk.Copies

/-!
A reader that succeeds takes the front of the bytes. What follows that front makes no difference, and
a reader that is given only a part of it complains that the chunk is cut off.
-/

namespace MiniLua

namespace Binary

open Effects Reader

variable {α β : Type}

/-- Whenever `m` succeeds it takes some front of the bytes. It does the same whatever comes after
that front, and fails as truncated on every shorter front. -/
def Consumes (m : Reader α) : Prop :=
  ∀ ⦃s a t⦄, m s = .ok a t → ∃ used, s.rest = used ++ t.rest ∧
    (∀ rest, m ⟨s.heap, used ++ rest⟩ = .ok a ⟨t.heap, rest⟩) ∧
    ∀ k < used.length, ∃ u, m ⟨s.heap, used.take k⟩ = .error (.format .truncated) u

namespace Consumes

variable {m : Reader α} {f : α → Reader β}

theorem of_heap {f : Heap → α × Heap}
    (hm : ∀ s, m s = .ok (f s.heap).1 ⟨(f s.heap).2, s.rest⟩) : Consumes m := by
  intro s a t h
  cases (hm s).symm.trans h
  exact ⟨[], rfl, fun rest ↦ hm ⟨s.heap, rest⟩, fun k hk ↦ absurd hk (Nat.not_lt_zero k)⟩

theorem pure (a : α) : Consumes (Pure.pure a : Reader α) := of_heap (f := fun heap ↦ (a, heap)) fun _ ↦ rfl

theorem throw (e : LoadError) : Consumes (throw e : Reader α) :=
  fun _ _ _ h ↦ absurd h throw_ne_ok

/-- The cut lies in what the first reader takes, or in what the second takes after that. -/
theorem bind (hm : Consumes m) (hf : ∀ a, Consumes (f a)) : Consumes (m >>= f) := by
  intro s b t h
  obtain ⟨a, u, hfirst, hsecond⟩ := bind_eq_ok.mp h
  obtain ⟨front, hrest, hmore, hcut⟩ := hm hfirst
  obtain ⟨back, hrest', hmore', hcut'⟩ := hf a hsecond
  refine ⟨front ++ back, by rw [hrest, hrest', List.append_assoc], fun rest ↦ ?_, fun k hk ↦ ?_⟩
  · rw [List.append_assoc, bind_of_ok (hmore _), hmore']
  · by_cases hfront : k < front.length
    · obtain ⟨v, hv⟩ := hcut k hfront
      rw [List.take_append_of_le_length hfront.le]
      exact ⟨v, bind_of_error hv⟩
    · rw [List.length_append] at hk
      obtain ⟨v, hv⟩ := hcut' (k - front.length) (by omega)
      rw [List.take_append, List.take_of_length_le (Nat.le_of_not_lt hfront), bind_of_ok (hmore _)]
      exact ⟨v, hv⟩

theorem ite {c : Prop} [Decidable c] {n : Reader α} (hm : Consumes m) (hn : Consumes n) :
    Consumes (if c then m else n) := by
  split
  · exact hm
  · exact hn

/-- What is only read after a check. -/
theorem checked {c : Prop} [Decidable c] {e : LoadError} {f : PUnit → Reader α}
    (hf : Consumes (f ⟨⟩)) : Consumes (if c then MonadExcept.throw e >>= f else f ⟨⟩) :=
  ite ((throw e).bind fun _ ↦ hf) hf

/-- What is only read after a name, and not if its bytes are no text. -/
theorem named {name : Option String} {e : LoadError} {f : String → Reader α}
    (hf : ∀ name, Consumes (f name)) :
    Consumes (match name with
      | some name => Pure.pure name >>= f
      | none => MonadExcept.throw e >>= f) := by
  cases name with
  | some name => exact (pure name).bind hf
  | none => exact (throw e).bind hf

end Consumes

theorem splitOff?_eq_some {n : Nat} {taken bytes front rest : Bytes}
    (h : splitOff? n taken bytes = some (front, rest)) :
    ∃ used, used.length = n ∧ bytes = used ++ rest ∧ front = taken.reverse ++ used := by
  induction n generalizing taken bytes with
  | zero =>
    cases h
    exact ⟨[], rfl, rfl, (List.append_nil _).symm⟩
  | succ n ih =>
    cases bytes with
    | nil => cases h
    | cons b bytes =>
      obtain ⟨used, hlength, rfl, rfl⟩ := ih h
      exact ⟨b :: used, by rw [List.length_cons, hlength], rfl, by simp⟩

theorem splitOff?_eq_none {n : Nat} {taken bytes : Bytes} (h : bytes.length < n) :
    splitOff? n taken bytes = none := by
  cases hsplit : splitOff? n taken bytes with
  | none => rfl
  | some parts =>
    obtain ⟨used, hlength, rfl, -⟩ := splitOff?_eq_some hsplit
    rw [List.length_append] at h
    omega

theorem take_eq_ok {n : Nat} {s t : Source} {a : Bytes} (h : take n s = .ok a t) :
    a.length = n ∧ s.rest = a ++ t.rest ∧ t.heap = s.heap := by
  rw [take, bind_apply, get_apply] at h
  dsimp only at h
  cases hsplit : splitOff? n [] s.rest with
  | none =>
    rw [hsplit] at h
    cases h
  | some parts =>
    obtain ⟨used, hlength, hbytes, htaken⟩ := splitOff?_eq_some hsplit
    rw [hsplit] at h
    cases h
    exact ⟨htaken ▸ hlength, htaken ▸ hbytes, rfl⟩

theorem consumes_take (n : Nat) : Consumes (take n) := by
  intro s a t h
  obtain ⟨hlength, hrest, hheap⟩ := take_eq_ok h
  refine ⟨a, hrest, fun rest ↦ ?_, fun k hk ↦ ?_⟩
  · obtain ⟨b, heap, hrun, -, -, hb⟩ :=
      (reads_take (S := False) hlength).accepts trivial s.heap rest False.elim
    obtain rfl : b = a := hb heap (.refl heap)
    rw [hrun, hheap, ← (take_eq_ok hrun).2.2]
  · have hnone : splitOff? n [] (a.take k) = none :=
      splitOff?_eq_none (by rw [List.length_take]; omega)
    rw [take, bind_apply, get_apply]
    dsimp only
    rw [hnone]
    exact ⟨_, rfl⟩

theorem consumes_number (bytes : Nat) : Consumes (number bytes) :=
  (consumes_take bytes).bind fun _ ↦ .pure _

theorem consumes_byte : Consumes byte := (consumes_number 1).bind fun _ ↦ .pure _

theorem consumes_string (limit : Nat) (what : String) : Consumes (string limit what) :=
  (consumes_number 4).bind fun length ↦ .checked (consumes_take length)

theorem consumes_count (limit : Nat) (what : String) : Consumes (count limit what) :=
  (consumes_number 4).bind fun n ↦ .checked (.pure n)

theorem consumes_many {item : Reader α} (hitem : Consumes item) (n : Nat) (found : List α) :
    Consumes (many item n found) := by
  induction n generalizing found with
  | zero => exact .pure _
  | succ n ih => exact hitem.bind fun a ↦ ih (a :: found)

theorem consumes_intern (s : Bytes) : Consumes (intern s) :=
  .of_heap (f := fun heap ↦ heap.intern s) fun _ ↦ rfl

theorem consumes_allocProto (p : Prototype) : Consumes (allocProto p) :=
  .of_heap (f := fun heap ↦ heap.allocProto p) fun _ ↦ rfl

theorem consumes_constant : Consumes Reader.constant := by
  refine consumes_byte.bind fun tag ↦ .ite (.pure _) (.ite (.pure _) (.ite (.pure _) ?_))
  refine .ite ((consumes_number 8).bind fun _ ↦ .pure _) ?_
  refine .ite ((consumes_number 8).bind fun _ ↦ .pure _) ?_
  refine .ite ((consumes_string maxString "string").bind fun s ↦ ?_) (.throw _)
  exact (consumes_intern s).bind fun _ ↦ .pure _

theorem consumes_instruction : Consumes Reader.instruction :=
  (consumes_number 4).bind fun _ ↦ .checked (.pure _)

theorem consumes_capture : Consumes Reader.capture :=
  consumes_byte.bind fun _ ↦ (consumes_number 2).bind fun _ ↦
    .ite (.pure _) (.ite (.pure _) (.throw _))

theorem consumes_proto (depth : Nat) : Consumes (proto depth) := by
  induction depth with
  | zero => exact .throw _
  | succ depth ih =>
    unfold proto
    refine (consumes_string maxName _).bind fun bytes ↦ .named fun name ↦ ?_
    refine consumes_byte.bind fun arity ↦ consumes_byte.bind fun flag ↦ ?_
    refine (consumes_number 2).bind fun cellCount ↦ .checked ?_
    refine (consumes_count maxConstants _).bind fun constantCount ↦ ?_
    refine (consumes_many consumes_constant constantCount []).bind fun constants ↦ ?_
    refine (consumes_count maxCode _).bind fun codeCount ↦ ?_
    refine (consumes_many consumes_instruction codeCount []).bind fun code ↦ ?_
    refine (consumes_count maxCode _).bind fun lineCount ↦ .checked ?_
    refine (consumes_many (consumes_number 4) lineCount []).bind fun lines ↦ ?_
    refine (consumes_count maxCaptures _).bind fun captureCount ↦ ?_
    refine (consumes_many consumes_capture captureCount []).bind fun captures ↦ ?_
    refine (consumes_count maxProtos _).bind fun protoCount ↦ ?_
    exact (consumes_many ih protoCount []).bind fun protos ↦ consumes_allocProto _

theorem consumes_main : Consumes Reader.main :=
  consumes_byte.bind fun _ ↦ .checked (consumes_proto (maxNesting + 1))

end Binary

open Binary

theorem binaryBody?_eq_some {bytes body : Bytes} :
    binaryBody? bytes = some body ↔ bytes = signature ++ body := by
  rw [binaryBody?]
  constructor
  · intro h
    split at h
    · next hprefix =>
      obtain ⟨rest, rfl⟩ := List.isPrefixOf_iff_prefix.mp hprefix
      rw [List.drop_left, Option.some.injEq] at h
      rw [h]
    · cases h
  · rintro rfl
    rw [if_pos (List.isPrefixOf_iff_prefix.mpr (List.prefix_append _ _)), List.drop_left]

theorem decode_of_main {body rest : Bytes} {s : State} {j : Nat} {heap : Heap} (name : String)
    (h : Reader.main ⟨s.heap, body⟩ = .ok j ⟨heap, rest⟩) :
    Loading.decode (signature ++ body) name s = .ok j { s with heap } := by
  rw [Loading.decode, binaryBody?_eq_some.mpr rfl]
  dsimp only
  rw [readChunk, h]

theorem decode_of_main_error {body : Bytes} {s : State} {e : LoadError} {t : Binary.Source} (name : String)
    (h : Reader.main ⟨s.heap, body⟩ = .error e t) :
    Loading.decode (signature ++ body) name s = .error e { s with heap := t.heap } := by
  rw [Loading.decode, binaryBody?_eq_some.mpr rfl]
  dsimp only
  rw [readChunk, h]

/-- A dump is loaded to its last byte. -/
theorem main_of_writeChunk {h : Heap} {i : Nat} {dump : Bytes}
    (htree : h.Tree (·.Loadable h) (Reader.maxNesting + 1) i) (hdump : writeChunk h i = .ok dump)
    (heap : Heap) : ∃ body j heap', dump = signature ++ body ∧
      Reader.main ⟨heap, body⟩ = .ok j ⟨heap', []⟩ := by
  obtain ⟨bytes, hbytes, rfl⟩ := writeChunk_eq_ok.mp hdump
  have hformat := htree.imp (Q := fun p ↦ p.Encodable h ∧ p.Within .format h) fun _ hp ↦
    ⟨hp.encodable, hp.within.format_of_loader⟩
  have hreads := reads_main (S := False) (hformat.of_any.mono (Nat.le_succ _)) hbytes
  obtain ⟨j, heap', hrun, -⟩ :=
    hreads.accepts (htree.imp fun _ hp ↦ hp.within) heap [] False.elim
  rw [List.append_nil] at hrun
  exact ⟨_, j, heap', rfl, hrun⟩

/-- What follows a dump makes no difference to what is loaded, and a dump that is cut off somewhere
after its signature is refused as truncated. -/
theorem decode_followed_or_cut {h : Heap} {i : Nat} {dump : Bytes}
    (htree : h.Tree (·.Loadable h) (Reader.maxNesting + 1) i) (hdump : writeChunk h i = .ok dump)
    (s : State) (name : String) :
    (∃ j heap, Loading.decode dump name s = .ok j { s with heap } ∧
        ∀ more, Loading.decode (dump ++ more) name s = .ok j { s with heap }) ∧
      ∀ k, signature.length ≤ k → k < dump.length → ∃ heap,
        Loading.decode (dump.take k) name s = .error (.format .truncated) { s with heap } := by
  obtain ⟨body, j, heap, rfl, hmain⟩ := main_of_writeChunk htree hdump s.heap
  obtain ⟨used, hused, hmore, hcut⟩ := consumes_main hmain
  obtain rfl : body = used := hused.trans (List.append_nil used)
  refine ⟨⟨j, heap, decode_of_main name hmain, fun more ↦ ?_⟩, fun k hk hlt ↦ ?_⟩
  · rw [List.append_assoc]
    exact decode_of_main name (hmore more)
  · rw [List.length_append] at hlt
    obtain ⟨t, ht⟩ := hcut (k - signature.length) (by omega)
    refine ⟨t.heap, ?_⟩
    rw [List.take_append, List.take_of_length_le hk]
    exact decode_of_main_error name ht

/-- The dump of two functions, cut inside the name of the inner one, and with a byte after it. -/
theorem decode_sample_followed_or_cut : ∃ dump, writeChunk sampleHeap 1 = .ok dump ∧
    (∃ j heap, Loading.decode (dump ++ [0]) "=a" (.start {} .empty false) =
      .ok j { State.start {} .empty false with heap }) ∧
    ∃ heap, Loading.decode (dump.take 50) "=a" (.start {} .empty false) =
      .error (.format .truncated) { State.start {} .empty false with heap } := by
  obtain ⟨dump, hdump, hlength⟩ : ∃ dump, writeChunk sampleHeap 1 = .ok dump ∧ 50 < dump.length :=
    ⟨_, rfl, by decide +kernel⟩
  obtain ⟨⟨j, heap, -, hmore⟩, hcut⟩ :=
    decode_followed_or_cut loadable_sampleHeap hdump (.start {} .empty false) "=a"
  exact ⟨dump, hdump, ⟨j, heap, hmore [0]⟩, hcut 50 (by decide) hlength⟩

end MiniLua

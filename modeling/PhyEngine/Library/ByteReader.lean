import Mathlib.Data.Nat.Bits
import Mathlib.Data.UInt

/-!
# Byte readers

A reader looks at a byte string from an offset on. `Decodes x bs a` says that `x` turns exactly
the bytes `bs` into `a`, whatever stands before and after them. The rules follow the monad.
-/

abbrev Bytes := List UInt8

abbrev ByteReader (ε : Type) := ReaderT Bytes (StateT Nat (Except ε))

namespace ByteReader

open List

variable {ε α β : Type}

variable (e : ε)

def next : ByteReader ε UInt8 := fun input off =>
  match input[off]? with
  | none => .error e
  | some b => .ok (b, off + 1)

/-- The next `n` bytes. If fewer are left it fails with `e`. -/
def take (n : Nat) : ByteReader ε Bytes := fun input off =>
  if input.length - off < n then .error e else .ok ((input.drop off).take n, off + n)

def check (c : Prop) [Decidable c] : ByteReader ε Unit := fun _ off =>
  if c then .ok ((), off) else .error e

def times (x : ByteReader ε α) : Nat → ByteReader ε (List α)
  | 0 => pure []
  | n + 1 => do
    let a ← x
    let as ← times x n
    pure (a :: as)

/-- `x` reads the bytes `bs` as `a`, and nothing beyond them. -/
def Decodes (x : ByteReader ε α) (bs : Bytes) (a : α) : Prop :=
  ∀ pre post : Bytes, x (pre ++ (bs ++ post)) pre.length = .ok (a, pre.length + bs.length)

theorem decodes_pure (a : α) : Decodes (pure a : ByteReader ε α) [] a := by
  intro pre post
  rfl

variable {bs cs : Bytes}

variable {a : α} {x : ByteReader ε α} {f : α → ByteReader ε β} {b : β}

theorem Decodes.bind (hx : Decodes x bs a)
    (hf : Decodes (f a) cs b) : Decodes (x >>= f) (bs ++ cs) b := by
  intro pre post
  have h1 := hx pre (cs ++ post)
  have h2 := hf (pre ++ bs) post
  rw [append_assoc, length_append] at h2
  show (x (pre ++ (bs ++ cs ++ post)) pre.length >>= fun p => f p.1 (pre ++ (bs ++ cs ++ post)) p.2) = _
  rw [append_assoc bs cs post, h1, length_append, ← Nat.add_assoc, ← h2]
  rfl

theorem Decodes.bind_pure {f : α → β} (hx : Decodes x bs a) :
    Decodes (x >>= fun y => pure (f y)) bs (f a) := by
  have h : Decodes (x >>= fun y => pure (f y)) (bs ++ []) (f a) := hx.bind (decodes_pure (f a))
  rwa [append_nil] at h

variable {c : Prop}

theorem decodes_check [Decidable c] (hc : c) : Decodes (check e c) [] () := by
  intro pre post
  rw [check, if_pos hc]
  rfl

theorem Decodes.check_bind [Decidable c] {e : ε} (hc : c)
    (hx : Decodes x bs a) :
    Decodes (check e c >>= fun _ => x) bs a :=
  (decodes_check e hc).bind hx

theorem decodes_next (b : UInt8) : Decodes (next e) [b] b := by
  intro pre post
  simp [next]

theorem decodes_take {n : Nat} (h : bs.length = n) : Decodes (take e n) bs bs := by
  intro pre post
  have hlen : ¬(pre ++ (bs ++ post)).length - pre.length < n := by
    simp only [length_append]
    omega
  rw [take, if_neg hlen, drop_left, ← h, take_left]

theorem decodes_times {enc : α → Bytes} {as : List α} (h : ∀ a ∈ as, Decodes x (enc a) a) :
    Decodes (times x as.length) (as.flatMap enc) as := by
  induction as with
  | nil => exact decodes_pure []
  | cons a as ih =>
    rw [flatMap_cons]
    apply (h a mem_cons_self).bind
    exact (ih fun b hb => h b (mem_cons_of_mem a hb)).bind_pure

theorem Decodes.run (h : Decodes x bs a) (post : Bytes) :
    x (bs ++ post) 0 = .ok (a, bs.length) := by
  have h0 := h [] post
  rwa [length_nil, nil_append, Nat.zero_add] at h0

def takeRest (n : Nat) : ByteReader ε Bytes := fun input off =>
  if input.length - off ≠ n then .error e else .ok (input.drop off, off + n)

def DecodesLast (x : ByteReader ε α) (bs : Bytes) (a : α) : Prop :=
  ∀ pre : Bytes, x (pre ++ bs) pre.length = .ok (a, pre.length + bs.length)

theorem decodesLast_takeRest {n : Nat} (h : bs.length = n) : DecodesLast (takeRest e n) bs bs := by
  intro pre
  have hlen : ¬(pre ++ bs).length - pre.length ≠ n := by
    rw [length_append]
    omega
  rw [takeRest, if_neg hlen, drop_left, h]

theorem Decodes.bind_last (hx : Decodes x bs a)
    (hf : DecodesLast (f a) cs b) : DecodesLast (x >>= f) (bs ++ cs) b := by
  intro pre
  have h1 := hx pre cs
  have h2 := hf (pre ++ bs)
  rw [append_assoc, length_append] at h2
  show (x (pre ++ (bs ++ cs)) pre.length >>= fun p => f p.1 (pre ++ (bs ++ cs)) p.2) = _
  rw [h1, length_append, ← Nat.add_assoc, ← h2]
  rfl

theorem DecodesLast.check_bind [Decidable c] {e : ε} (hc : c)
    (hx : DecodesLast x bs a) : DecodesLast (check e c >>= fun _ => x) bs a :=
  (decodes_check e hc).bind_last hx

theorem DecodesLast.bind_pure {f : α → β} (hx : DecodesLast x bs a) :
    DecodesLast (x >>= fun y => pure (f y)) bs (f a) := by
  intro pre
  show (x (pre ++ bs) pre.length >>= fun p => (pure (f p.1) : ByteReader ε β) (pre ++ bs) p.2) = _
  rw [hx pre]
  rfl

theorem DecodesLast.run (h : DecodesLast x bs a) :
    x bs 0 = .ok (a, bs.length) := by
  have h0 := h []
  rwa [length_nil, nil_append, Nat.zero_add] at h0

def Fails (x : ByteReader ε α) (bs : Bytes) : Prop :=
  ∀ pre post : Bytes, ∃ e, x (pre ++ (bs ++ post)) pre.length = .error e

theorem Fails.bind (hx : Fails x bs) (f : α → ByteReader ε β) (cs : Bytes) :
    Fails (x >>= f) (bs ++ cs) := by
  intro pre post
  obtain ⟨e, he⟩ := hx pre (cs ++ post)
  refine ⟨e, ?_⟩
  show (x (pre ++ (bs ++ cs ++ post)) pre.length >>= fun p => f p.1 (pre ++ (bs ++ cs ++ post)) p.2) = _
  rw [append_assoc bs cs post, he]
  rfl

theorem Decodes.bind_fails (hx : Decodes x bs a)
    (hf : Fails (f a) cs) : Fails (x >>= f) (bs ++ cs) := by
  intro pre post
  have h1 := hx pre (cs ++ post)
  obtain ⟨e, h2⟩ := hf (pre ++ bs) post
  rw [append_assoc, length_append] at h2
  refine ⟨e, ?_⟩
  show (x (pre ++ (bs ++ cs ++ post)) pre.length >>= fun p => f p.1 (pre ++ (bs ++ cs ++ post)) p.2) = _
  rw [append_assoc bs cs post, h1, ← h2]
  rfl

theorem fails_check [Decidable c] (hc : ¬c) (f : Unit → ByteReader ε α) (bs : Bytes) :
    Fails (check e c >>= f) bs := by
  have hcheck : Fails (check e c) [] := by
    intro pre post
    exact ⟨e, if_neg hc⟩
  exact hcheck.bind f bs

theorem Fails.check_bind [Decidable c] {e : ε} (hc : c) (hx : Fails x bs) :
    Fails (check e c >>= fun _ => x) bs :=
  (decodes_check e hc).bind_fails hx

theorem Fails.run (h : Fails x bs) (post : Bytes) :
    ∃ e, x (bs ++ post) 0 = .error e := by
  have h0 := h [] post
  rwa [length_nil, nil_append] at h0

end ByteReader

def leBytes : Nat → Nat → Bytes
  | 0, _ => []
  | w + 1, n => UInt8.ofNat n :: leBytes w (n / 256)

def ofLeBytes : Bytes → Nat
  | [] => 0
  | b :: bs => b.toNat + 256 * ofLeBytes bs

@[simp] theorem length_leBytes (w n : Nat) : (leBytes w n).length = w := by
  induction w generalizing n with
  | zero => rfl
  | succ w ih => rw [leBytes, List.length_cons, ih]

theorem ofLeBytes_leBytes {w n : Nat} (h : n < 256 ^ w) : ofLeBytes (leBytes w n) = n := by
  induction w generalizing n with
  | zero =>
    rw [Nat.pow_zero] at h
    show 0 = n
    omega
  | succ w ih =>
    have hdiv : n / 256 < 256 ^ w := by
      apply Nat.div_lt_of_lt_mul
      rwa [Nat.pow_succ, Nat.mul_comm] at h
    rw [leBytes, ofLeBytes, ih hdiv, UInt8.toNat_ofNat']
    omega

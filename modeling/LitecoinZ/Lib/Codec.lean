import Mathlib.Data.Vector.Basic
import Mathlib.Tactic.Linarith

/-!
# Codecs

A codec writes values as bytes and reads them back from the front of a byte string.  It is exact for a set of values
(`Exact`) if it reads back every value of the set and leaves the bytes behind it, and if whatever it reads is in the set
and was written just so.  Exactness is kept by the ways to build codecs from smaller ones: sequences in which the second
codec depends on the value of the first, changes of representation, guards, vectors and lists behind their length.
-/

/-- How values are written and read; reading may fail. -/
structure Codec (ε α : Type) where
  put : α → List UInt8
  get : List UInt8 → Except ε (α × List UInt8)

namespace Codec

variable {ε α β : Type}

/-- The values of `P` are read back, up to where they end. -/
def Decodes (c : Codec ε α) (P : α → Prop) : Prop := ∀ x, P x → ∀ rest, c.get (c.put x ++ rest) = .ok (x, rest)

/-- The codec encodes exactly the values of `P`, each in one way. -/
structure Exact (c : Codec ε α) (P : α → Prop) : Prop where
  decodes : c.Decodes P
  canonical : ∀ {bytes x rest}, c.get bytes = .ok (x, rest) → P x ∧ bytes = c.put x ++ rest

variable {c : Codec ε α} {P : α → Prop} {d : α → Codec ε β} {Q : α → β → Prop} {f : α → β} {g : β → α} {n : Nat}

/-- Encodings are free of prefixes: they determine the value and where it ends. -/
theorem Exact.put_inj (hc : c.Exact P) {x y : α} {rest rest' : List UInt8} (hx : P x) (hy : P y)
    (h : c.put x ++ rest = c.put y ++ rest') : x = y ∧ rest = rest' := by
  have hgx := hc.decodes x hx rest
  rw [h, hc.decodes y hy rest'] at hgx
  cases hgx
  exact ⟨rfl, rfl⟩

theorem Exact.congr {Q : α → Prop} (hc : c.Exact P) (h : ∀ x, P x ↔ Q x) : c.Exact Q := by
  obtain rfl : P = Q := funext fun x => propext (h x)
  exact hc

/-! ### Building codecs -/

def const (a : α) : Codec ε α where
  put _ := []
  get bytes := .ok (a, bytes)

theorem exact_const (a : α) : (const a : Codec ε α).Exact (· = a) where
  decodes := by
    rintro x rfl rest
    rfl
  canonical := by
    intro bytes x rest h
    cases h
    exact ⟨rfl, rfl⟩

def seq (c : Codec ε α) (d : α → Codec ε β) : Codec ε (α × β) where
  put x := c.put x.1 ++ (d x.1).put x.2
  get bytes := do
    let (a, bytes) ← c.get bytes
    let (b, bytes) ← (d a).get bytes
    pure ((a, b), bytes)

theorem decodes_seq (hc : c.Decodes P) (hd : ∀ a, P a → (d a).Decodes (Q a)) :
    (c.seq d).Decodes fun x => P x.1 ∧ Q x.1 x.2 := by
  rintro ⟨a, b⟩ ⟨ha, hb⟩ rest
  have hfirst := hc a ha ((d a).put b ++ rest)
  have hsnd := hd a ha b hb rest
  simp only [seq, List.append_assoc]
  rw [hfirst]
  simp only [bind, Except.bind]
  rw [hsnd]
  rfl

theorem exact_seq (hc : c.Exact P) (hd : ∀ a, P a → (d a).Exact (Q a)) : (c.seq d).Exact fun x => P x.1 ∧ Q x.1 x.2 where
  decodes := decodes_seq hc.decodes fun a ha => (hd a ha).decodes
  canonical := by
    intro bytes x rest h
    simp only [seq, bind, Except.bind] at h
    split at h
    · cases h
    · rename_i p hfirst
      obtain ⟨a, mid⟩ := p
      split at h
      · cases h
      · rename_i q hsnd
        obtain ⟨b, rest'⟩ := q
        cases h
        obtain ⟨ha, rfl⟩ := hc.canonical hfirst
        obtain ⟨hb, rfl⟩ := (hd a ha).canonical hsnd
        exact ⟨⟨ha, hb⟩, by simp only [seq, List.append_assoc]⟩

def imap (c : Codec ε α) (f : α → β) (g : β → α) : Codec ε β where
  put b := c.put (g b)
  get bytes := do
    let (a, bytes) ← c.get bytes
    pure (f a, bytes)

theorem decodes_imap {Q : β → Prop} (hc : c.Decodes P) (hg : ∀ b, Q b → P (g b) ∧ f (g b) = b) : (c.imap f g).Decodes Q := by
  intro b hb rest
  obtain ⟨ha, hfg⟩ := hg b hb
  simp only [imap, bind, Except.bind]
  rw [hc (g b) ha]
  simp only [hfg]
  rfl

theorem exact_imap {Q : β → Prop} (hc : c.Exact P) (hf : ∀ a, P a → Q (f a) ∧ g (f a) = a)
    (hg : ∀ b, Q b → P (g b) ∧ f (g b) = b) : (c.imap f g).Exact Q where
  decodes := decodes_imap hc.decodes hg
  canonical := by
    intro bytes b rest h
    simp only [imap, bind, Except.bind] at h
    split at h
    · cases h
    · rename_i p hread
      obtain ⟨a, rest'⟩ := p
      cases h
      obtain ⟨ha, rfl⟩ := hc.canonical hread
      obtain ⟨hb, hgf⟩ := hf a ha
      exact ⟨hb, by simp only [imap, hgf]⟩

theorem exact_equiv (hc : c.Exact P) (hgf : ∀ a, g (f a) = a) (hfg : ∀ b, f (g b) = b) :
    (c.imap f g).Exact fun b => P (g b) := by
  refine exact_imap hc ?_ ?_
  · intro a ha
    rw [hgf]
    exact ⟨ha, rfl⟩
  · intro b hb
    exact ⟨hb, hfg b⟩

def guard (c : Codec ε α) (check : α → Except ε Unit) : Codec ε α where
  put := c.put
  get bytes := do
    let (a, bytes) ← c.get bytes
    check a
    pure (a, bytes)

theorem exact_guard {check : α → Except ε Unit} (hc : c.Exact P) :
    (c.guard check).Exact fun a => P a ∧ check a = .ok () where
  decodes := by
    rintro a ⟨ha, hcheck⟩ rest
    simp only [guard, bind, Except.bind]
    rw [hc.decodes a ha]
    simp only [hcheck]
    rfl
  canonical := by
    intro bytes a rest h
    simp only [guard, bind, Except.bind] at h
    split at h
    · cases h
    · rename_i p hread
      obtain ⟨a', rest'⟩ := p
      split at h
      · cases h
      · rename_i u hcheck
        cases h
        obtain ⟨ha, rfl⟩ := hc.canonical hread
        exact ⟨⟨ha, hcheck⟩, rfl⟩

variable (eof : ε)

/-- One byte; `eof` says that there is none. -/
def byte : Codec ε UInt8 where
  put b := [b]
  get
    | [] => .error eof
    | b :: bytes => .ok (b, bytes)

theorem exact_byte : (byte eof).Exact fun _ => True where
  decodes := by
    intro x _ rest
    rfl
  canonical := by
    intro bytes x rest h
    cases bytes with
    | nil => cases h
    | cons b bytes =>
      cases h
      exact ⟨trivial, rfl⟩

/-- A natural number in little endian order. -/
def le (eof : ε) : Nat → Codec ε Nat
  | 0 => const 0
  | width + 1 =>
    ((byte eof).seq fun _ => le eof width).imap (fun x => x.1.toNat + 256 * x.2) fun n => (UInt8.ofNat n, n / 256)

theorem exact_le (width : Nat) : (le eof width).Exact (· < 256 ^ width) := by
  induction width with
  | zero => exact (exact_const 0).congr fun n => by omega
  | succ width ih =>
    refine exact_imap (exact_seq (exact_byte eof) fun _ _ => ih) ?_ ?_
    · rintro ⟨b, n⟩ ⟨-, hn⟩
      have hb := b.toNat_lt
      simp only [Nat.pow_succ] at hn ⊢
      refine ⟨by omega, ?_⟩
      have hlow : UInt8.ofNat (b.toNat + 256 * n) = b := by
        apply UInt8.toNat_inj.1
        rw [UInt8.toNat_ofNat']
        omega
      rw [hlow, show (b.toNat + 256 * n) / 256 = n by omega]
    · intro n hn
      simp only [Nat.pow_succ, UInt8.toNat_ofNat'] at hn ⊢
      exact ⟨⟨trivial, by omega⟩, by omega⟩

theorem length_put_le (width n : Nat) : ((le eof width).put n).length = width := by
  induction width generalizing n with
  | zero => rfl
  | succ width ih =>
    change ([UInt8.ofNat n] ++ (le eof width).put (n / 256)).length = width + 1
    rw [List.length_append, ih, List.length_singleton, Nat.add_comm]

/-! ### Repetition -/

def getMany (c : Codec ε α) : Nat → List UInt8 → Except ε (List α × List UInt8)
  | 0, bytes => .ok ([], bytes)
  | n + 1, bytes => do
    let (a, bytes) ← c.get bytes
    let (l, bytes) ← c.getMany n bytes
    pure (a :: l, bytes)

def repeated (c : Codec ε α) (n : Nat) : Codec ε (List α) where
  put l := l.flatMap c.put
  get := c.getMany n

theorem exact_repeated (hc : c.Exact P) (n : Nat) :
    (c.repeated n).Exact fun l => l.length = n ∧ ∀ x ∈ l, P x where
  decodes := by
    rintro l ⟨rfl, hl⟩ rest
    simp only [repeated]
    induction l with
    | nil => rfl
    | cons a l ih =>
      have hfirst := hc.decodes a (hl a List.mem_cons_self) (l.flatMap c.put ++ rest)
      have hoth := ih fun x hx => hl x (List.mem_cons_of_mem a hx)
      rw [List.flatMap_cons, List.append_assoc, List.length_cons, getMany]
      simp only [bind, Except.bind]
      rw [hfirst]
      simp only
      rw [hoth]
      rfl
  canonical := by
    simp only [repeated]
    induction n with
    | zero =>
      intro bytes l rest h
      cases h
      exact ⟨⟨rfl, fun x hx => absurd hx List.not_mem_nil⟩, rfl⟩
    | succ n ih =>
      intro bytes l rest h
      simp only [getMany, bind, Except.bind] at h
      split at h
      · cases h
      · rename_i p hfirst
        obtain ⟨a, mid⟩ := p
        split at h
        · cases h
        · rename_i q hoth
          obtain ⟨l', rest'⟩ := q
          cases h
          obtain ⟨ha, rfl⟩ := hc.canonical hfirst
          obtain ⟨⟨hlen, hl⟩, rfl⟩ := ih hoth
          refine ⟨⟨by rw [List.length_cons, hlen], ?_⟩, ?_⟩
          · intro x hx
            rcases List.mem_cons.1 hx with rfl | hx
            · exact ha
            · exact hl x hx
          · rw [List.flatMap_cons, List.append_assoc]

/-- A list behind its length. -/
def list (size : Codec ε Nat) (c : Codec ε α) : Codec ε (List α) :=
  (size.seq c.repeated).imap Prod.snd fun l => (l.length, l)

theorem exact_list {size : Codec ε Nat} {S : Nat → Prop} (hs : size.Exact S) (hc : c.Exact P) :
    (list size c).Exact fun l => S l.length ∧ ∀ x ∈ l, P x := by
  refine exact_imap (exact_seq hs fun n _ => exact_repeated hc n) ?_ ?_
  · rintro ⟨n, l⟩ ⟨hn, hlen, hl⟩
    dsimp only at hn hlen hl ⊢
    subst hlen
    exact ⟨⟨hn, hl⟩, rfl⟩
  · rintro l ⟨hn, hl⟩
    exact ⟨⟨hn, rfl, hl⟩, rfl⟩

/-- A vector of values, without its length. -/
def vector [Inhabited α] (c : Codec ε α) (n : Nat) : Codec ε (Vector α n) :=
  (c.repeated n).imap (fun l => Vector.ofFn fun i => l.getD i default) Vector.toList

theorem exact_vector [Inhabited α] (hc : c.Exact P) (n : Nat) :
    (c.vector n).Exact fun v => ∀ x ∈ v, P x := by
  refine exact_imap (exact_repeated hc n) ?_ ?_
  · rintro l ⟨rfl, hl⟩
    have hback : (Vector.ofFn fun i : Fin l.length => l.getD i default).toList = l := by
      apply List.ext_getElem
      · simp
      · intro i h1 h2
        simp
    refine ⟨fun x hx => hl x ?_, hback⟩
    rw [← hback]
    exact Vector.mem_toList_iff.2 hx
  · intro v hv
    refine ⟨⟨Vector.length_toList, fun x hx => hv x (Vector.mem_toList_iff.1 hx)⟩, ?_⟩
    apply Vector.ext
    intro i hi
    simp

/-! ### Codecs of a fixed width -/

/-- The codec reads any bytes that are enough, and it reads `n` of them. -/
def Reads (c : Codec ε α) (n : Nat) : Prop := ∀ bytes, n ≤ bytes.length → ∃ x, c.get bytes = .ok (x, bytes.drop n)

theorem reads_const (a : α) : (const a : Codec ε α).Reads 0 := fun bytes _ => ⟨a, by rw [List.drop_zero]; rfl⟩

theorem reads_byte : (byte eof).Reads 1 := by
  intro bytes h
  cases bytes with
  | nil => exact absurd h (by simp)
  | cons b rest => exact ⟨b, rfl⟩

theorem reads_seq {m : Nat} (hc : c.Reads m) (hd : ∀ a, (d a).Reads n) :
    (c.seq d).Reads (m + n) := by
  intro bytes h
  obtain ⟨a, ha⟩ := hc bytes (by omega)
  obtain ⟨b, hb⟩ := hd a (bytes.drop m) (by rw [List.length_drop]; omega)
  rw [List.drop_drop] at hb
  refine ⟨(a, b), ?_⟩
  simp only [seq, ha, hb, bind, Except.bind, pure, Except.pure]

theorem reads_imap (hc : c.Reads n) (f : α → β) (g : β → α) : (c.imap f g).Reads n := by
  intro bytes h
  obtain ⟨a, ha⟩ := hc bytes h
  refine ⟨f a, ?_⟩
  simp only [imap, ha, bind, Except.bind, pure, Except.pure]

theorem reads_le (width : Nat) : (le eof width).Reads width := by
  induction width with
  | zero => exact reads_const 0
  | succ width ih =>
    have hstep := reads_imap (reads_seq (reads_byte eof) fun _ => ih) (fun x => x.1.toNat + 256 * x.2) fun n =>
      (UInt8.ofNat n, n / 256)
    rw [Nat.add_comm] at hstep
    exact hstep

theorem reads_repeated {m : Nat} (hc : c.Reads m) (n : Nat) : (c.repeated n).Reads (n * m) := by
  induction n with
  | zero =>
    intro bytes _
    exact ⟨[], by rw [Nat.zero_mul, List.drop_zero]; rfl⟩
  | succ n ih =>
    intro bytes h
    rw [Nat.succ_mul] at h ⊢
    obtain ⟨a, ha⟩ := hc bytes (by omega)
    obtain ⟨l, hl⟩ := ih (bytes.drop m) (by rw [List.length_drop]; omega)
    rw [List.drop_drop, Nat.add_comm] at hl
    change c.getMany n _ = _ at hl
    refine ⟨a :: l, ?_⟩
    change c.getMany (n + 1) bytes = _
    simp only [getMany, ha, hl, bind, Except.bind, pure, Except.pure]

theorem reads_vector [Inhabited α] {m : Nat} (hc : c.Reads m) (n : Nat) : (c.vector n).Reads (n * m) :=
  reads_imap (reads_repeated hc n) _ _

theorem Exact.exists_put (hc : c.Exact P) (hreads : c.Reads n) {bytes : List UInt8} (h : bytes.length = n) :
    ∃ x, P x ∧ c.put x = bytes ∧ c.get bytes = .ok (x, []) := by
  obtain ⟨x, hx⟩ := hreads bytes h.ge
  rw [List.drop_eq_nil_of_le h.le] at hx
  obtain ⟨hP, hput⟩ := hc.canonical hx
  rw [List.append_nil] at hput
  exact ⟨x, hP, hput.symm, hx⟩

theorem Exact.length_put (hc : c.Exact P) (hreads : c.Reads n) {x : α} (hx : P x) :
    (c.put x).length = n := by
  obtain ⟨y, hy⟩ := hreads (c.put x ++ List.replicate n 0) (by simp)
  rw [hc.decodes x hx] at hy
  have hrest : List.replicate n 0 = (c.put x ++ List.replicate n 0).drop n := congrArg Prod.snd (Except.ok.inj hy)
  have hlen := congrArg List.length hrest
  rw [List.length_drop, List.length_append, List.length_replicate] at hlen
  omega

end Codec

import Mathlib.Tactic.SplitIfs
import ExprCompiler.CommandLine.Run

/-!
# Which files are texts

The bytes of a text are those of its characters, one after the other. Such
bytes are decoded to the characters, and no others are decoded to the end. The
decoding stops at the first byte that rules a text out.
-/

namespace ExprCompiler

namespace Text.Utf8

open String (utf8EncodeChar)

/-! ### One character -/

theorem toNat_ofNat_of_lt {n : Nat} (h : n < 256) : (UInt8.ofNat n).toNat = n := by
  rw [UInt8.toNat_ofNat', Nat.mod_eq_of_lt h]

theorem decodeFrom_first {b : UInt8} {p : Partial} (h : lead b.toNat = .first p) (bs : List UInt8) :
    decodeFrom none (b :: bs) = decodeFrom (some p) bs := by
  rw [decodeFrom, h]

theorem decodeFrom_more {b : UInt8} {p : Partial} (hl : p.low ≤ b.toNat) (hh : b.toNat ≤ p.high)
    (hm : 1 < p.missing) (bs : List UInt8) : decodeFrom (some p) (b :: bs) =
      decodeFrom (some ⟨p.missing - 1, p.value * 64 + (b.toNat - 0x80), 0x80, 0xbf⟩) bs := by
  have hin : (p.low ≤ b.toNat && b.toNat ≤ p.high) = true := by simp [hl, hh]
  rw [decodeFrom, if_pos hin]
  simp only [if_neg (Nat.not_le.2 hm)]

theorem decodeFrom_last {b : UInt8} {p : Partial} (hl : p.low ≤ b.toNat) (hh : b.toNat ≤ p.high)
    (hm : p.missing ≤ 1) (bs : List UInt8) : decodeFrom (some p) (b :: bs) =
      (decodeFrom none bs).map (·.push (Char.ofNat (p.value * 64 + (b.toNat - 0x80)))) := by
  have hin : (p.low ≤ b.toNat && b.toNat ≤ p.high) = true := by simp [hl, hh]
  rw [decodeFrom, if_pos hin]
  simp only [if_pos hm]

theorem lead_two {n : Nat} (h : 0xc2 ≤ n) (h' : n < 0xe0) :
    lead n = .first ⟨1, n - 0xc0, 0x80, 0xbf⟩ := by
  rw [lead, if_neg (by omega), if_neg (by omega), if_pos h']

theorem lead_three {n : Nat} (h : 0xe0 ≤ n) (h' : n < 0xf0) :
    lead n = .first ⟨2, n - 0xe0, if n = 0xe0 then 0xa0 else 0x80,
      if n = 0xed then 0x9f else 0xbf⟩ := by
  rw [lead, if_neg (by omega), if_neg (by omega), if_neg (by omega), if_pos h']

theorem lead_four {n : Nat} (h : 0xf0 ≤ n) (h' : n < 0xf5) :
    lead n = .first ⟨3, n - 0xf0, if n = 0xf0 then 0x90 else 0x80,
      if n = 0xf4 then 0x8f else 0xbf⟩ := by
  rw [lead, if_neg (by omega), if_neg (by omega), if_neg (by omega), if_neg (by omega), if_pos h']

/-! ### The bytes of one character -/

def Continues (b : UInt8) : Prop := 0x80 ≤ b.toNat ∧ b.toNat ≤ 0xbf

theorem decodeFrom_two {a b : UInt8} (h : 0xc2 ≤ a.toNat) (h' : a.toNat < 0xe0)
    (h₁ : Continues b) (bs : List UInt8) : decodeFrom none (a :: b :: bs) =
      (decodeFrom none bs).map
        (·.push (Char.ofNat ((a.toNat - 0xc0) * 64 + (b.toNat - 0x80)))) := by
  rw [decodeFrom_first (lead_two h h')]
  exact decodeFrom_last h₁.1 h₁.2 (Nat.le_refl 1) bs

theorem decodeFrom_three {a b c : UInt8} (h : 0xe0 ≤ a.toNat) (h' : a.toNat < 0xf0)
    (h₁ : (if a.toNat = 0xe0 then 0xa0 else 0x80) ≤ b.toNat)
    (h₁' : b.toNat ≤ if a.toNat = 0xed then 0x9f else 0xbf) (h₂ : Continues c)
    (bs : List UInt8) : decodeFrom none (a :: b :: c :: bs) =
      (decodeFrom none bs).map (·.push (Char.ofNat
        (((a.toNat - 0xe0) * 64 + (b.toNat - 0x80)) * 64 + (c.toNat - 0x80)))) := by
  rw [decodeFrom_first (lead_three h h'), decodeFrom_more h₁ h₁' (Nat.lt_succ_self 1)]
  exact decodeFrom_last h₂.1 h₂.2 (Nat.le_refl 1) bs

theorem decodeFrom_four {a b c d : UInt8} (h : 0xf0 ≤ a.toNat) (h' : a.toNat < 0xf5)
    (h₁ : (if a.toNat = 0xf0 then 0x90 else 0x80) ≤ b.toNat)
    (h₁' : b.toNat ≤ if a.toNat = 0xf4 then 0x8f else 0xbf) (h₂ : Continues c)
    (h₃ : Continues d) (bs : List UInt8) : decodeFrom none (a :: b :: c :: d :: bs) =
      (decodeFrom none bs).map (·.push (Char.ofNat
        ((((a.toNat - 0xf0) * 64 + (b.toNat - 0x80)) * 64 + (c.toNat - 0x80)) * 64 +
          (d.toNat - 0x80)))) := by
  rw [decodeFrom_first (lead_four h h'), decodeFrom_more h₁ h₁' (by decide : 1 < 3),
    decodeFrom_more h₂.1 h₂.2 (by decide : 1 < 3 - 1)]
  exact decodeFrom_last h₃.1 h₃.2 (Nat.le_refl 1) bs

theorem decodeFrom_encode (c : Char) (bs : List UInt8) :
    decodeFrom none (utf8EncodeChar c ++ bs) = (decodeFrom none bs).map (·.push c) := by
  have hvalid : c.val.toNat < 0xd800 ∨ 0xdfff < c.val.toNat ∧ c.val.toNat < 0x110000 := c.valid
  have hc : Char.ofNat c.val.toNat = c := Char.ofNat_toNat c
  unfold utf8EncodeChar
  generalize c.val.toNat = v at hvalid hc
  dsimp only
  have hmore (n : Nat) : (UInt8.ofNat (n % 0x40 + 0x80)).toNat = n % 0x40 + 0x80 :=
    toNat_ofNat_of_lt (by omega)
  have hcontinues (n : Nat) : Continues (UInt8.ofNat (n % 0x40 + 0x80)) := by
    rw [Continues, hmore]
    omega
  split_ifs with h1 h2 h3
  · have hb := toNat_ofNat_of_lt (n := v) (by omega)
    have hlead : lead v = .ascii := by rw [lead, if_pos (by omega)]
    rw [List.cons_append, List.nil_append, decodeFrom, hb, hlead, hc]
  · have hb := toNat_ofNat_of_lt (n := v / 64 % 0x20 + 0xc0) (by omega)
    have hvalue : (v / 64 % 0x20 + 0xc0 - 0xc0) * 64 + (v % 0x40 + 0x80 - 0x80) = v := by omega
    have hread := decodeFrom_two (by rw [hb]; omega) (by rw [hb]; omega) (hcontinues v) bs
    rwa [hb, hmore, hvalue, hc] at hread
  · have hb := toNat_ofNat_of_lt (n := v / 4096 % 0x10 + 0xe0) (by omega)
    have hvalue : ((v / 4096 % 0x10 + 0xe0 - 0xe0) * 64 + (v / 64 % 0x40 + 0x80 - 0x80)) * 64 +
        (v % 0x40 + 0x80 - 0x80) = v := by omega
    have hread := decodeFrom_three (b := UInt8.ofNat (v / 64 % 0x40 + 0x80)) (by rw [hb]; omega)
      (by rw [hb]; omega) (by rw [hb, hmore]; split_ifs <;> omega)
      (by rw [hb, hmore]; split_ifs <;> omega) (hcontinues v) bs
    rwa [hb, hmore, hmore, hvalue, hc] at hread
  · have hb := toNat_ofNat_of_lt (n := v / 262144 % 0x08 + 0xf0) (by omega)
    have hvalue : (((v / 262144 % 0x08 + 0xf0 - 0xf0) * 64 + (v / 4096 % 0x40 + 0x80 - 0x80)) * 64 +
        (v / 64 % 0x40 + 0x80 - 0x80)) * 64 + (v % 0x40 + 0x80 - 0x80) = v := by omega
    have hread := decodeFrom_four (b := UInt8.ofNat (v / 4096 % 0x40 + 0x80)) (by rw [hb]; omega)
      (by rw [hb]; omega) (by rw [hb, hmore]; split_ifs <;> omega)
      (by rw [hb, hmore]; split_ifs <;> omega) (hcontinues (v / 64)) (hcontinues v) bs
    rwa [hb, hmore, hmore, hmore, hvalue, hc] at hread

/-! ### Nothing else is decoded -/

theorem ofNat_val {v : Nat} (h : v < 0xd800 ∨ 0xdfff < v ∧ v < 0x110000) :
    (Char.ofNat v).val.toNat = v := by
  have hvalid : v.isValidChar := h
  rw [Char.ofNat, dif_pos hvalid]
  rfl

theorem ofNat_toNat_eq {b : UInt8} {n : Nat} (h : b.toNat = n) : UInt8.ofNat n = b := by
  rw [← h, UInt8.ofNat_toNat]

theorem encode_one {a : UInt8} (h : a.toNat < 0x80) : utf8EncodeChar (Char.ofNat a.toNat) = [a] := by
  have hval := ofNat_val (v := a.toNat) (by omega)
  simp only [utf8EncodeChar, hval]
  rw [if_pos (by omega), UInt8.ofNat_toNat]

theorem encode_two {a b : UInt8} (h : 0xc2 ≤ a.toNat) (h' : a.toNat < 0xe0) (hb : Continues b) :
    utf8EncodeChar (Char.ofNat ((a.toNat - 0xc0) * 64 + (b.toNat - 0x80))) = [a, b] := by
  obtain ⟨hb, hb'⟩ := hb
  have hval := ofNat_val (v := (a.toNat - 0xc0) * 64 + (b.toNat - 0x80)) (by omega)
  simp only [utf8EncodeChar, hval]
  rw [if_neg (by omega), if_pos (by omega), ofNat_toNat_eq (b := a) (by omega),
    ofNat_toNat_eq (b := b) (by omega)]

theorem encode_three {a b c : UInt8} (h : 0xe0 ≤ a.toNat) (h' : a.toNat < 0xf0)
    (hb : (if a.toNat = 0xe0 then 0xa0 else 0x80) ≤ b.toNat)
    (hb' : b.toNat ≤ if a.toNat = 0xed then 0x9f else 0xbf) (hc : Continues c) :
    utf8EncodeChar (Char.ofNat
      (((a.toNat - 0xe0) * 64 + (b.toNat - 0x80)) * 64 + (c.toNat - 0x80))) = [a, b, c] := by
  obtain ⟨hc, hc'⟩ := hc
  have hval := ofNat_val
    (v := ((a.toNat - 0xe0) * 64 + (b.toNat - 0x80)) * 64 + (c.toNat - 0x80))
    (by split_ifs at hb hb' <;> omega)
  have hrange : 0x80 ≤ b.toNat ∧ b.toNat ≤ 0xbf := by split_ifs at hb hb' <;> omega
  have hlow : a.toNat = 0xe0 → 0xa0 ≤ b.toNat := fun ha => by rwa [if_pos ha] at hb
  simp only [utf8EncodeChar, hval]
  rw [if_neg (by omega), if_neg (by omega), if_pos (by omega), ofNat_toNat_eq (b := a) (by omega),
    ofNat_toNat_eq (b := b) (by omega), ofNat_toNat_eq (b := c) (by omega)]

theorem encode_four {a b c d : UInt8} (h : 0xf0 ≤ a.toNat) (h' : a.toNat < 0xf5)
    (hb : (if a.toNat = 0xf0 then 0x90 else 0x80) ≤ b.toNat)
    (hb' : b.toNat ≤ if a.toNat = 0xf4 then 0x8f else 0xbf) (hc : Continues c)
    (hd : Continues d) :
    utf8EncodeChar (Char.ofNat ((((a.toNat - 0xf0) * 64 + (b.toNat - 0x80)) * 64 +
      (c.toNat - 0x80)) * 64 + (d.toNat - 0x80))) = [a, b, c, d] := by
  obtain ⟨hc, hc'⟩ := hc
  obtain ⟨hd, hd'⟩ := hd
  have hrange : 0x80 ≤ b.toNat ∧ b.toNat ≤ 0xbf := by split_ifs at hb hb' <;> omega
  have hlow : a.toNat = 0xf0 → 0x90 ≤ b.toNat := fun ha => by rwa [if_pos ha] at hb
  have hhigh : a.toNat = 0xf4 → b.toNat ≤ 0x8f := fun ha => by rwa [if_pos ha] at hb'
  have hval := ofNat_val (v := (((a.toNat - 0xf0) * 64 + (b.toNat - 0x80)) * 64 +
    (c.toNat - 0x80)) * 64 + (d.toNat - 0x80)) (by omega)
  simp only [utf8EncodeChar, hval]
  rw [if_neg (by omega), if_neg (by omega), if_neg (by omega),
    ofNat_toNat_eq (b := a) (by omega), ofNat_toNat_eq (b := b) (by omega),
    ofNat_toNat_eq (b := c) (by omega), ofNat_toNat_eq (b := d) (by omega)]

theorem lead_first {n : Nat} {p : Partial} (h : lead n = .first p) :
    (0xc2 ≤ n ∧ n < 0xe0) ∨ (0xe0 ≤ n ∧ n < 0xf0) ∨ (0xf0 ≤ n ∧ n < 0xf5) := by
  unfold lead at h
  split_ifs at h <;> omega

theorem lead_ascii {n : Nat} (h : lead n = .ascii) : n < 0x80 := by
  unfold lead at h
  split_ifs at h
  assumption

theorem byte_of_some {p : Partial} {bs : List UInt8} {d : Decoded}
    (h : decodeFrom (some p) bs = some d) (hd : d.truncated = false) :
    ∃ b rest, bs = b :: rest ∧ p.low ≤ b.toNat ∧ b.toNat ≤ p.high := by
  cases bs with
  | nil =>
    cases h
    cases hd
  | cons b rest =>
    by_cases hin : (p.low ≤ b.toNat && b.toNat ≤ p.high) = true
    · rw [Bool.and_eq_true, decide_eq_true_eq, decide_eq_true_eq] at hin
      exact ⟨b, rest, rfl, hin.1, hin.2⟩
    · rw [decodeFrom, if_neg hin] at h
      cases h

theorem of_map_push {o : Option Decoded} {c : Char} {d : Decoded}
    (h : o.map (·.push c) = some d) (hd : d.truncated = false) :
    ∃ e, o = some e ∧ e.truncated = false ∧ d.chars = c :: e.chars := by
  cases o with
  | none => cases h
  | some e =>
    cases h
    exact ⟨e, rfl, hd, rfl⟩

theorem exists_first {a : UInt8} {bs : List UInt8} {d : Decoded}
    (h : decodeFrom none (a :: bs) = some d) (hd : d.truncated = false) :
    ∃ c rest e, a :: bs = utf8EncodeChar c ++ rest ∧ decodeFrom none rest = some e ∧
      e.truncated = false ∧ d.chars = c :: e.chars := by
  cases hlead : lead a.toNat with
  | ascii =>
    rw [decodeFrom, hlead] at h
    obtain ⟨e, he, hfalse, hchars⟩ := of_map_push h hd
    exact ⟨_, bs, e, by rw [encode_one (lead_ascii hlead)]; rfl, he, hfalse, hchars⟩
  | invalid =>
    rw [decodeFrom, hlead] at h
    cases h
  | first p =>
    obtain ⟨ha, ha'⟩ | ⟨ha, ha'⟩ | ⟨ha, ha'⟩ := lead_first hlead
    · have hp := h
      rw [decodeFrom_first (lead_two ha ha')] at hp
      obtain ⟨b, bs, rfl, hb⟩ := byte_of_some hp hd
      rw [decodeFrom_two ha ha' hb] at h
      obtain ⟨e, he, hfalse, hchars⟩ := of_map_push h hd
      exact ⟨_, bs, e, by rw [encode_two ha ha' hb]; rfl, he, hfalse, hchars⟩
    · have hp := h
      rw [decodeFrom_first (lead_three ha ha')] at hp
      obtain ⟨b, bs, rfl, hb, hb'⟩ := byte_of_some hp hd
      rw [decodeFrom_more hb hb' (Nat.lt_succ_self 1)] at hp
      obtain ⟨c, bs, rfl, hc⟩ := byte_of_some hp hd
      rw [decodeFrom_three ha ha' hb hb' hc] at h
      obtain ⟨e, he, hfalse, hchars⟩ := of_map_push h hd
      exact ⟨_, bs, e, by rw [encode_three ha ha' hb hb' hc]; rfl, he, hfalse, hchars⟩
    · have hp := h
      rw [decodeFrom_first (lead_four ha ha')] at hp
      obtain ⟨b, bs, rfl, hb, hb'⟩ := byte_of_some hp hd
      rw [decodeFrom_more hb hb' (by decide : 1 < 3)] at hp
      obtain ⟨c, bs, rfl, hc⟩ := byte_of_some hp hd
      rw [decodeFrom_more hc.1 hc.2 (by decide : 1 < 3 - 1)] at hp
      obtain ⟨z, bs, rfl, hz⟩ := byte_of_some hp hd
      rw [decodeFrom_four ha ha' hb hb' hc hz] at h
      obtain ⟨e, he, hfalse, hchars⟩ := of_map_push h hd
      exact ⟨_, bs, e, by rw [encode_four ha ha' hb hb' hc hz]; rfl, he, hfalse, hchars⟩

/-! ### Texts -/

theorem decode_flatMap (cs : List Char) :
    decode (cs.flatMap utf8EncodeChar) = some ⟨cs, false⟩ := by
  unfold decode
  induction cs with
  | nil => rfl
  | cons c cs ih => rw [List.flatMap_cons, decodeFrom_encode, ih]; rfl

theorem flatMap_of_decode {bs : List UInt8} {d : Decoded} (h : decode bs = some d)
    (hd : d.truncated = false) : bs = d.chars.flatMap utf8EncodeChar := by
  -- On the number of bytes, since each character takes one at least.
  unfold decode at h
  induction hn : bs.length using Nat.strongRecOn generalizing bs d with
  | ind n ih =>
    cases bs with
    | nil =>
      cases h
      rfl
    | cons a bs =>
      obtain ⟨c, rest, e, hbytes, he, hfalse, hchars⟩ := exists_first h hd
      have hlt : rest.length < n := by
        have hpos := List.length_pos_iff.2 (String.utf8EncodeChar_ne_nil (c := c))
        rw [← hn, hbytes, List.length_append]
        omega
      rw [hbytes, hchars, List.flatMap_cons, ← ih rest.length hlt he hfalse rfl]

/-- Bytes are decoded to the end if and only if they are the bytes of a text. -/
theorem decode_iff (bs : List UInt8) :
    (∃ d, decode bs = some d ∧ d.truncated = false) ↔ bs.toByteArray.IsValidUTF8 := by
  constructor
  · rintro ⟨d, h, hd⟩
    exact ⟨d.chars, by rw [flatMap_of_decode h hd]; rfl⟩
  · rintro ⟨cs, hcs⟩
    have hbytes : bs = cs.flatMap utf8EncodeChar := by
      have hdata := congrArg (fun b => b.data.toList) hcs
      simpa [List.utf8Encode, List.toList_data_toByteArray] using hdata
    exact ⟨_, hbytes ▸ decode_flatMap cs, rfl⟩

/-! ### Fronts of texts -/

def Partial.Open (p : Partial) : Prop := p.low ≤ p.high ∧ p.high < 0x100

theorem lead_open {n : Nat} {p : Partial} (h : lead n = .first p) : p.Open := by
  unfold Partial.Open
  obtain ⟨hn, hn'⟩ | ⟨hn, hn'⟩ | ⟨hn, hn'⟩ := lead_first h
  · cases (lead_two hn hn').symm.trans h
    simp
  · cases (lead_three hn hn').symm.trans h
    dsimp only
    split_ifs <;> omega
  · cases (lead_four hn hn').symm.trans h
    dsimp only
    split_ifs <;> omega

/-- A byte ends the decoding, or it goes on with these characters in front. -/
theorem decodeFrom_cons (o : Option Partial) (b : UInt8) :
    (∀ bs, decodeFrom o (b :: bs) = none) ∨
      ∃ o' cs, (∀ p, o' = some p → p.Open) ∧ ∀ bs,
        decodeFrom o (b :: bs) = (decodeFrom o' bs).map fun d => ⟨cs ++ d.chars, d.truncated⟩ := by
  cases o with
  | none =>
    cases hlead : lead b.toNat with
    | invalid => exact .inl fun bs => by rw [decodeFrom, hlead]
    | ascii =>
      refine .inr ⟨none, [Char.ofNat b.toNat], by simp, fun bs => ?_⟩
      rw [decodeFrom, hlead]
      rfl
    | first p =>
      refine .inr ⟨some p, [], fun q hq => Option.some.inj hq ▸ lead_open hlead, fun bs => ?_⟩
      simp [decodeFrom_first hlead]
  | some p =>
    by_cases hin : p.low ≤ b.toNat ∧ b.toNat ≤ p.high
    · by_cases hm : p.missing ≤ 1
      · exact .inr ⟨none, [_], by simp, decodeFrom_last hin.1 hin.2 hm⟩
      · have hmore := decodeFrom_more hin.1 hin.2 (Nat.lt_of_not_le hm)
        refine .inr ⟨_, [], fun q hq => ?_, fun bs => by simpa using hmore bs⟩
        cases hq
        simp [Partial.Open]
    · exact .inl fun bs => by simp [decodeFrom, hin]

theorem exists_completion {p : Partial} (h : p.Open) :
    ∃ more, (decodeFrom (some p) more).map (·.truncated) = some false := by
  induction hn : p.missing using Nat.strongRecOn generalizing p with
  | ind n ih =>
    have hbyte : (UInt8.ofNat p.low).toNat = p.low := toNat_ofNat_of_lt (Nat.lt_of_le_of_lt h.1 h.2)
    have hlow : p.low ≤ (UInt8.ofNat p.low).toNat := Nat.le_of_eq hbyte.symm
    have hhigh : (UInt8.ofNat p.low).toNat ≤ p.high := Nat.le_trans (Nat.le_of_eq hbyte) h.1
    by_cases hm : p.missing ≤ 1
    · exact ⟨[_], by rw [decodeFrom_last hlow hhigh hm]; rfl⟩
    · have hnext := decodeFrom_more hlow hhigh (Nat.lt_of_not_le hm)
      obtain ⟨more, hmore⟩ := ih (p.missing - 1) (by omega) (p := ⟨_, _, 0x80, 0xbf⟩)
        (by simp [Partial.Open]) rfl
      exact ⟨_ :: more, by rw [hnext]; exact hmore⟩

theorem decodeFrom_front_iff (bs : List UInt8) {o : Option Partial} (h : ∀ p, o = some p → p.Open) :
    (decodeFrom o bs).isSome ↔
      ∃ more, (decodeFrom o (bs ++ more)).map (·.truncated) = some false := by
  induction bs generalizing o with
  | nil =>
    cases o with
    | none => exact ⟨fun _ => ⟨[], rfl⟩, fun _ => rfl⟩
    | some p => exact ⟨fun _ => exists_completion (h p rfl), fun _ => rfl⟩
  | cons b bs ih =>
    obtain hends | ⟨o', cs, hopen, hgoes⟩ := decodeFrom_cons o b
    · simp [hends]
    · simpa [hgoes, Function.comp_def] using ih hopen

def BeginsText (bs : List UInt8) : Prop := ∃ more, (bs ++ more).toByteArray.IsValidUTF8

/-- Bytes are decoded as far as they go if and only if a text may begin with them. -/
theorem decode_front_iff (bs : List UInt8) : (decode bs).isSome ↔ BeginsText bs := by
  simp only [BeginsText, ← decode_iff]
  simpa [decode] using decodeFrom_front_iff (o := none) bs (by simp)

end Text.Utf8

namespace CommandLine

theorem ending_of_valid {bs : List UInt8} (h : bs.toByteArray.IsValidUTF8) :
    (sourceOfBytes bs).ending = .closed := by
  obtain ⟨d, hd, hend⟩ := (Text.Utf8.decode_iff bs).2 h
  simp [sourceOfBytes, hd, hend]

theorem ending_of_invalid {bs : List UInt8} (h : ¬ bs.toByteArray.IsValidUTF8) :
    (sourceOfBytes bs).ending = .undecodable := by
  unfold sourceOfBytes
  cases hd : Text.Utf8.decode bs with
  | none => rfl
  | some d =>
    have hcut : d.truncated ≠ false := fun hend =>
      h ((Text.Utf8.decode_iff bs).1 ⟨d, hd, hend⟩)
    simp [hcut]

theorem ending_of_front {bs : List UInt8} {reason : String} (h : Text.Utf8.BeginsText bs) :
    (sourceOfFront bs reason).ending = .failed reason := by
  obtain ⟨d, hd⟩ := Option.isSome_iff_exists.1 ((Text.Utf8.decode_front_iff bs).2 h)
  simp [sourceOfFront, hd]

theorem ending_of_noFront {bs : List UInt8} {reason : String} (h : ¬ Text.Utf8.BeginsText bs) :
    (sourceOfFront bs reason).ending = .undecodable := by
  rw [← Text.Utf8.decode_front_iff, Option.not_isSome_iff_eq_none] at h
  simp [sourceOfFront, h]

end CommandLine

end ExprCompiler

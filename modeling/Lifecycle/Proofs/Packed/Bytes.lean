import Mathlib.Tactic.Linarith
import Mathlib.Tactic.Ring
import Lifecycle.Packed.Parse
import Lifecycle.Proofs.Text

/-!
# Packed values and their bytes

A value that the format can hold is read back from its bytes, whatever follows them.
-/

namespace Lifecycle

/-- The reader takes exactly these bytes from the front and makes `a` of them. -/
def Reads {α : Type} (r : ByteReader α) (bs : List UInt8) (a : α) : Prop :=
  ∀ rest, r (bs ++ rest) = .ok (a, rest)

namespace Reads

variable {α β : Type} {r : ByteReader α} {bs cs : List UInt8} {a : α} {b : β}

theorem pure (a : α) : Reads (Pure.pure a) [] a := fun _ => rfl

theorem bind {f : α → ByteReader β} (h : Reads r bs a) (hf : Reads (f a) cs b) :
    Reads (r >>= f) (bs ++ cs) b := by
  intro rest
  have hb : (r >>= f) (bs ++ cs ++ rest) = (r (bs ++ cs ++ rest) >>= fun p => f p.1 p.2) := rfl
  rw [hb, List.append_assoc, h]
  exact hf rest

theorem map {f : α → β} (h : Reads r bs a) :
    Reads (do return f (← r)) bs (f a) := by
  have hb := h.bind (f := fun a => Pure.pure (f a)) (Reads.pure (f a))
  rwa [List.append_nil] at hb

end Reads

namespace Packed

/-! ## Words -/

def bigNat (bs : List UInt8) : Nat := bs.foldl (fun n b => n * 256 + b.toNat) 0

theorem toNat_shift_or {n : UInt64} {b : UInt8} (h : n.toNat * 256 + 256 ≤ 2 ^ 64) :
    (n <<< 8 ||| b.toUInt64).toNat = n.toNat * 256 + b.toNat := by
  have hb : b.toNat < 2 ^ 8 := b.toNat_lt
  have hs : (n <<< 8).toNat = n.toNat <<< 8 := by
    rw [UInt64.toNat_shiftLeft]
    simp only [UInt64.toNat_ofNat, Nat.reducePow, Nat.reduceMod]
    exact Nat.mod_eq_of_lt (by omega)
  rw [UInt64.toNat_or, hs, UInt8.toNat_toUInt64, ← Nat.shiftLeft_add_eq_or_of_lt hb,
    Nat.shiftLeft_eq]

theorem foldl_bigNat (bs : List UInt8) (acc : Nat) :
    bs.foldl (fun n b => n * 256 + b.toNat) acc = acc * 256 ^ bs.length + bigNat bs := by
  induction bs generalizing acc with
  | nil => simp [bigNat]
  | cons b bs ih =>
    rw [bigNat, List.foldl_cons, List.foldl_cons, ih, ih (0 * 256 + b.toNat), List.length_cons,
      pow_succ]
    ring

theorem bigNat_cons (b : UInt8) (bs : List UInt8) :
    bigNat (b :: bs) = b.toNat * 256 ^ bs.length + bigNat bs := by
  rw [bigNat, List.foldl_cons, foldl_bigNat]
  simp

variable {bs : List UInt8}

theorem toNat_ofBigEndian (h : bs.length ≤ 8) : (ofBigEndian bs).toNat = bigNat bs := by
  have key : ∀ (bs : List UInt8) (n : UInt64), (n.toNat + 1) * 256 ^ bs.length ≤ 2 ^ 64 →
      (bs.foldl (fun (n : UInt64) (b : UInt8) => n <<< 8 ||| b.toUInt64) n).toNat =
        bs.foldl (fun n b => n * 256 + b.toNat) n.toNat := by
    intro bs
    induction bs with
    | nil => exact fun n _ => rfl
    | cons b bs ih =>
      intro n hn
      have hb : b.toNat + 1 ≤ 256 := b.toNat_lt
      have hone : 1 ≤ 256 ^ bs.length := Nat.one_le_pow _ _ (by norm_num)
      rw [List.length_cons, pow_succ] at hn
      have hstep : (n.toNat + 1) * 256 ≤ 2 ^ 64 :=
        le_trans (Nat.le_mul_of_pos_right _ hone) (by linarith)
      have hor := toNat_shift_or (n := n) (b := b) (by linarith)
      rw [List.foldl_cons, List.foldl_cons, ih _ ?_, hor]
      rw [hor]
      calc (n.toNat * 256 + b.toNat + 1) * 256 ^ bs.length
          ≤ ((n.toNat + 1) * 256) * 256 ^ bs.length := Nat.mul_le_mul_right _ (by linarith)
        _ = (n.toNat + 1) * (256 ^ bs.length * 256) := by ring
        _ ≤ 2 ^ 64 := hn
  refine key bs 0 ?_
  have : (256 : Nat) ^ bs.length ≤ 256 ^ 8 := Nat.pow_le_pow_right (by norm_num) h
  simpa using this

theorem length_bigEndian (width : Nat) (n : UInt64) : (bigEndian width n).length = width := by
  simp [bigEndian]

theorem bigEndian_succ (width : Nat) (n : UInt64) : bigEndian (width + 1) n =
      (n >>> (8 * UInt64.ofNat width)).toUInt8 :: bigEndian width n := by
  simp [bigEndian, List.range_succ]

variable {width : Nat}

theorem bigNat_bigEndian (n : UInt64) (h : width ≤ 8) :
    bigNat (bigEndian width n) = n.toNat % 256 ^ width := by
  induction width with
  | zero => simp [bigEndian, bigNat, Nat.mod_one]
  | succ width ih =>
    have hbyte : (n >>> (8 * UInt64.ofNat width)).toUInt8.toNat = n.toNat / 256 ^ width % 256 := by
      have hw : (8 * UInt64.ofNat width).toNat = 8 * width := by
        rw [UInt64.toNat_mul, UInt64.toNat_ofNat_of_lt' (by simp [UInt64.size]; omega)]
        exact Nat.mod_eq_of_lt (by simp; omega)
      have hmod : 8 * width % 64 = 8 * width := Nat.mod_eq_of_lt (by omega)
      rw [UInt64.toNat_toUInt8, UInt64.toNat_shiftRight, hw, hmod, Nat.shiftRight_eq_div_pow,
        Nat.pow_mul]
    rw [bigEndian_succ, bigNat_cons, ih (by omega), length_bigEndian, hbyte, pow_succ, Nat.mod_mul]
    ring

theorem reads_takeBytes (bs : List UInt8) : Reads (takeBytes bs.length) bs bs := by
  intro rest
  simp [takeBytes]

theorem reads_word {α : Type} (f : UInt64 → α) (width : Nat) (h : width ≤ 8) (n : UInt64) :
    Reads (do return f (ofBigEndian (← takeBytes width))) (bigEndian width n)
      (f (.ofNat (n.toNat % 256 ^ width))) := by
  have hr := (reads_takeBytes (bigEndian width n)).map (f := fun bs => f (ofBigEndian bs))
  rw [length_bigEndian] at hr
  have hv : ofBigEndian (bigEndian width n) = .ofNat (n.toNat % 256 ^ width) := by
    apply UInt64.toNat.inj
    have hlt : n.toNat % 256 ^ width < 2 ^ 64 := lt_of_le_of_lt (Nat.mod_le _ _) n.toNat_lt
    rw [toNat_ofBigEndian (by rw [length_bigEndian]; exact h), bigNat_bigEndian n h,
      UInt64.toNat_ofNat', Nat.mod_eq_of_lt hlt]
  rwa [hv] at hr

/-! ## Values -/

/-- Whether a form holds a number: reading its bytes must give the number back. -/
def Holds (form : NumForm) (n : UInt64) : Prop :=
  match form with
  | .fix => (n.toUInt8 < 0x80 ∨ 0xE0 ≤ n.toUInt8) ∧ extendSign 1 n = n
  | f => if f.isSigned then extendSign f.width n = n else n.toNat < 256 ^ f.width

mutual

/-- `p` holds of the value and of all values in it. -/
def All (p : Packed → Prop) : Packed → Prop
  | .arr items => p (.arr items) ∧ AllItems p items
  | .map entries => p (.map entries) ∧ AllEntries p entries
  | v => p v

def AllItems (p : Packed → Prop) : List Packed → Prop
  | [] => True
  | v :: vs => v.All p ∧ AllItems p vs

def AllEntries (p : Packed → Prop) : List (Packed × Packed) → Prop
  | [] => True
  | (k, v) :: es => k.All p ∧ v.All p ∧ AllEntries p es

end

def ShortHere : Packed → Prop
  | .str t | .bin t => t.size < 2 ^ 32
  | .arr items => items.length < 2 ^ 32
  | .map entries => entries.length < 2 ^ 32
  | .ext data => data.length ≤ 2 ^ 32
  | _ => True

def ExactHere : Packed → Prop
  | .num form n => Holds form n
  | .float bs => bs.length = 4 ∨ bs.length = 8
  | .ext data => 0 < data.length
  | _ => True

/-- No text and no list in a value is longer than the format can say. -/
def Short (v : Packed) : Prop := v.All ShortHere

def Exact (v : Packed) : Prop := v.All ExactHere

theorem reads_takeWord (h : width ≤ 4) (hn : n < 256 ^ width) :
    Reads (takeWord width) (bigEndian width (.ofNat n)) n := by
  have hlt : n < 2 ^ 64 :=
    lt_of_lt_of_le hn (le_trans (Nat.pow_le_pow_right (by norm_num) h) (by norm_num))
  have hr := reads_word UInt64.toNat width (by omega) (.ofNat n)
  have hnat : (UInt64.ofNat n).toNat = n := by rw [UInt64.toNat_ofNat', Nat.mod_eq_of_lt hlt]
  rw [hnat, Nat.mod_eq_of_lt hn, hnat] at hr
  exact hr

theorem extendSign_low (hw : width = 1 ∨ width = 2 ∨ width = 4 ∨ width = 8)
    (n : UInt64) : extendSign width (.ofNat (n.toNat % 256 ^ width)) = extendSign width n := by
  rcases hw with rfl | rfl | rfl | rfl
  · have : (UInt64.ofNat (n.toNat % 256 ^ 1)).toUInt8 = n.toUInt8 := by
      apply UInt8.toNat.inj
      simp
    simp only [extendSign, this]
  · have : (UInt64.ofNat (n.toNat % 256 ^ 2)).toUInt16 = n.toUInt16 := by
      apply UInt16.toNat.inj
      simp
    simp only [extendSign, this]
  · have : (UInt64.ofNat (n.toNat % 256 ^ 4)).toUInt32 = n.toUInt32 := by
      apply UInt32.toNat.inj
      simp
    simp only [extendSign, this]
  · have : UInt64.ofNat (n.toNat % 256 ^ 8) = n := by
      simp
    rw [this]

theorem reads_takeNum (hf : form ≠ .fix) (h : Holds form n) :
    Reads (takeNum form) (bigEndian form.width n) (.num form n) := by
  have hw : form.width = 1 ∨ form.width = 2 ∨ form.width = 4 ∨ form.width = 8 := by
    cases form <;> simp_all [NumForm.width]
  have hr := reads_word
    (fun w => Packed.num form (if form.isSigned then extendSign form.width w else w))
    form.width (by omega) n
  rw [extendSign_low hw] at hr
  have hv : (if form.isSigned then extendSign form.width n else
      .ofNat (n.toNat % 256 ^ form.width)) = n := by
    rw [Holds] at h
    · by_cases hs : form.isSigned
      · rw [if_pos hs] at h ⊢
        exact h
      · rw [if_neg hs] at h ⊢
        rw [Nat.mod_eq_of_lt h, UInt64.ofNat_toNat]
    · exact hf
  rw [hv] at hr
  exact hr

theorem takeFlat_tag (hf : form ≠ .fix) : takeFlat form.tag = takeNum form := by
  cases form with
  | fix => exact absurd rfl hf
  | _ => rfl

theorem shapeOf_flat (h : c < 0x80 ∨ 0xA0 ≤ c ∧ c < 0xDC ∨ 0xE0 ≤ c) :
    shapeOf c = (.flat, Pure.pure 0) := by
  have hc : c.toNat < 128 ∨ 160 ≤ c.toNat ∧ c.toNat < 220 ∨ 224 ≤ c.toNat := h
  have h1 : ¬(0x90 ≤ c && c ≤ 0x9F) = true := by
    simp only [Bool.and_eq_true, decide_eq_true_eq, UInt8.le_iff_toNat_le, UInt8.toNat_ofNat]
    omega
  have h2 : ¬(0x80 ≤ c && c ≤ 0x8F) = true := by
    simp only [Bool.and_eq_true, decide_eq_true_eq, UInt8.le_iff_toNat_le, UInt8.toNat_ofNat]
    omega
  rw [shapeOf, if_neg h1, if_neg h2]
  all_goals
    rintro rfl
    exact absurd hc (by decide)

theorem reads_flat
    (hc : c < 0x80 ∨ 0xA0 ≤ c ∧ c < 0xDC ∨ 0xE0 ≤ c) (h : Reads (takeFlat c) bs v) (k : Nat) :
    Reads (takeValue (k + 1)) (c :: bs) v := by
  intro rest
  simp only [List.cons_append, takeValue, shapeOf_flat hc]
  exact h rest

theorem reads_num (h : Holds form n) (k : Nat) :
    Reads (takeValue (k + 1)) (numBytes form n) (.num form n) := by
  by_cases hf : form = .fix
  · subst hf
    obtain ⟨hr, hs⟩ := h
    refine reads_flat (by tauto) ?_ k
    have hc : (n.toUInt8 < 0x80 || 0xE0 ≤ n.toUInt8) = true := by simpa using hr
    have hlow : extendSign 1 n.toUInt8.toUInt64 = n := by
      rw [extendSign, UInt8.toUInt8_toUInt64]
      exact hs
    unfold takeFlat
    rw [if_pos hc, hlow]
    exact Reads.pure _
  · have hb : numBytes form n = form.tag :: bigEndian form.width n := by
      rw [numBytes]
      exact hf
    rw [hb]
    refine reads_flat ?_ ?_ k
    · cases form with
      | fix => exact absurd rfl hf
      | _ => decide
    · rw [takeFlat_tag hf]
      exact reads_takeNum hf h

theorem lengthBytes_cases (small n : Nat) (base : UInt8) (words : List (UInt8 × Nat))
    (hw : ∃ w ∈ words, w.2 = 4) (h : n < 2 ^ 32) :
    n < small ∧ lengthBytes small base words n = [base + .ofNat n] ∨ ∃ w ∈ words, n < 256 ^ w.2 ∧
        lengthBytes small base words n = w.1 :: bigEndian w.2 (.ofNat n) := by
  by_cases hs : n < small
  · exact .inl ⟨hs, by rw [lengthBytes, if_pos hs]⟩
  · have hf : (words.find? fun w => n < Nat.pow 256 w.2).isSome := by
      obtain ⟨w, hw, hn⟩ := hw
      exact List.find?_isSome.2 ⟨w, hw, by simpa [hn] using h⟩
    obtain ⟨w, hw⟩ := Option.isSome_iff_exists.1 hf
    have hn : n < 256 ^ w.2 := by simpa using List.find?_some hw
    exact .inr ⟨w, List.mem_of_find?_eq_some hw, hn, by rw [lengthBytes, if_neg hs, hw]⟩

theorem toNat_add_ofNat (base : UInt8) (h : base.toNat + n < 256) :
    (base + .ofNat n).toNat = base.toNat + n := by
  rw [UInt8.toNat_add, UInt8.toNat_ofNat', Nat.mod_eq_of_lt (by omega : n < 2 ^ 8)]
  exact Nat.mod_eq_of_lt h

theorem within_add_ofNat (base top : UInt8) (h : base.toNat + n ≤ top.toNat) :
    (base ≤ base + .ofNat n && base + .ofNat n ≤ top) = true := by
  have hlt := top.toNat_lt
  have hc := toNat_add_ofNat base (n := n) (by omega)
  simp only [Bool.and_eq_true, decide_eq_true_eq, UInt8.le_iff_toNat_le, hc]
  omega

theorem toNat_add_sub (base : UInt8) (h : base.toNat + n < 256) :
    (base + .ofNat n - base).toNat = n := by
  have hle : base ≤ base + .ofNat n := by
    rw [UInt8.le_iff_toNat_le, toNat_add_ofNat base h]
    omega
  rw [UInt8.toNat_sub_of_le _ _ hle, toNat_add_ofNat base h]
  omega

theorem reads_arrayStart (h : n < 2 ^ 32) :
    ∃ c ws length, arrayStart n = c :: ws ∧ shapeOf c = (.arr, length) ∧ Reads length ws n := by
  rcases lengthBytes_cases 16 n 0x90 [(0xDC, 2), (0xDD, 4)] (by simp) h with
    ⟨hs, he⟩ | ⟨w, hw, hn, he⟩
  · refine ⟨_, _, _, he, ?_, Reads.pure n⟩
    have hb := within_add_ofNat (n := n) 0x90 0x9F (by simp; omega)
    unfold shapeOf
    rw [if_pos hb, toNat_add_sub _ (by simp; omega)]
  · simp only [List.mem_cons, List.not_mem_nil, or_false] at hw
    rcases hw with rfl | rfl <;> exact ⟨_, _, _, he, rfl, reads_takeWord (by norm_num) hn⟩

theorem reads_mapStart (h : n < 2 ^ 32) :
    ∃ c ws length, mapStart n = c :: ws ∧ shapeOf c = (.map, length) ∧ Reads length ws n := by
  rcases lengthBytes_cases 16 n 0x80 [(0xDE, 2), (0xDF, 4)] (by simp) h with
    ⟨hs, he⟩ | ⟨w, hw, hn, he⟩
  · refine ⟨_, _, _, he, ?_, Reads.pure n⟩
    have hc := toNat_add_ofNat 0x80 (n := n) (by simp; omega)
    have hb := within_add_ofNat (n := n) 0x80 0x8F (by simp; omega)
    have ha : ¬(0x90 ≤ (0x80 : UInt8) + .ofNat n && (0x80 : UInt8) + .ofNat n ≤ 0x9F) = true := by
      simp only [Bool.and_eq_true, decide_eq_true_eq, UInt8.le_iff_toNat_le, hc, UInt8.toNat_ofNat]
      omega
    unfold shapeOf
    rw [if_neg ha, if_pos hb, toNat_add_sub _ (by simp; omega)]
  · simp only [List.mem_cons, List.not_mem_nil, or_false] at hw
    rcases hw with rfl | rfl <;> exact ⟨_, _, _, he, rfl, reads_takeWord (by norm_num) hn⟩

theorem reads_takeText (t : Text) : Reads (takeText t.size) t.toList t := by
  have hr := (reads_takeBytes t.toList).map (f := Text.ofList)
  rw [Text.ofList_toList, Text.length_toList] at hr
  exact hr

theorem reads_longText (h : width ≤ 4) (ht : t.size < 256 ^ width) :
    Reads (takeLongText width) (bigEndian width (.ofNat t.size) ++ t.toList) t :=
  (reads_takeWord h ht).bind (reads_takeText t)

theorem reads_str (h : t.size < 2 ^ 32) (k : Nat) :
    Reads (takeValue (k + 1)) (textBytes t) (.str t) := by
  rcases lengthBytes_cases 32 t.size 0xA0 [(0xD9, 1), (0xDA, 2), (0xDB, 4)] (by simp) h with
    ⟨hs, he⟩ | ⟨w, hw, hn, he⟩
  · have hc := toNat_add_ofNat 0xA0 (n := t.size) (by simp; omega)
    rw [textBytes, he]
    refine reads_flat (.inr (.inl ?_)) ?_ k
    · simp only [UInt8.le_iff_toNat_le, UInt8.lt_iff_toNat_lt, hc, UInt8.toNat_ofNat]
      omega
    · have hf : ¬((0xA0 : UInt8) + .ofNat t.size < 0x80 || 0xE0 ≤ (0xA0 : UInt8) + .ofNat t.size)
          = true := by
        simp only [Bool.or_eq_true, decide_eq_true_eq, UInt8.le_iff_toNat_le, UInt8.lt_iff_toNat_lt,
          hc, UInt8.toNat_ofNat]
        omega
      have hb := within_add_ofNat (n := t.size) 0xA0 0xBF (by simp; omega)
      unfold takeFlat
      rw [if_neg hf, if_pos hb, toNat_add_sub _ (by simp; omega)]
      exact (reads_takeText t).map
  · rw [textBytes, he]
    simp only [List.mem_cons, List.not_mem_nil, or_false] at hw
    rcases hw with rfl | rfl | rfl
    all_goals exact (reads_longText (by norm_num) hn).map

theorem reads_bin (h : t.size < 2 ^ 32) (k : Nat) :
    Reads (takeValue (k + 1)) (bytes (.bin t)) (.bin t) := by
  rcases lengthBytes_cases 0 t.size 0 [(0xC4, 1), (0xC5, 2), (0xC6, 4)] (by simp) h with
    ⟨hs, he⟩ | ⟨w, hw, hn, he⟩
  · omega
  · rw [bytes, he]
    simp only [List.mem_cons, List.not_mem_nil, or_false] at hw
    rcases hw with rfl | rfl | rfl
    all_goals exact (reads_longText (by norm_num) hn).map

theorem reads_takeExt (hw : width ≤ 4) (hp : 0 < data.length)
    (h : data.length - 1 < 256 ^ width) :
    Reads (do takeExt (← takeWord width)) (bigEndian width (.ofNat (data.length - 1)) ++ data)
      (.ext data) := by
  refine (reads_takeWord hw h).bind ?_
  have hr := (reads_takeBytes data).map (f := Packed.ext)
  rw [show data.length = data.length - 1 + 1 by omega] at hr
  exact hr

theorem reads_ext (hp : 0 < data.length) (h : data.length ≤ 2 ^ 32) (k : Nat) :
    Reads (takeValue (k + 1)) (bytes (.ext data)) (.ext data) := by
  rcases lengthBytes_cases 0 (data.length - 1) 0 [(0xC7, 1), (0xC8, 2), (0xC9, 4)]
    (by simp) (by omega) with
    ⟨hs, he⟩ | ⟨w, hw, hn, he⟩
  · omega
  · rw [bytes, he]
    simp only [List.mem_cons, List.not_mem_nil, or_false] at hw
    rcases hw with rfl | rfl | rfl
    all_goals exact reads_takeExt (by norm_num) hp hn

theorem reads_float (h : bs.length = 4 ∨ bs.length = 8) (k : Nat) :
    Reads (takeValue (k + 1)) (bytes (.float bs)) (.float bs) := by
  have hr := (reads_takeBytes bs).map (f := Packed.float)
  rcases h with h | h
  · rw [bytes, if_pos h]
    rw [h] at hr
    exact hr
  · rw [bytes, if_neg (by omega)]
    rw [h] at hr
    exact hr

theorem lengthBytes_append_ne_nil (hw : ∃ w ∈ words, w.2 = 4) (h : n < 2 ^ 32) :
    lengthBytes small base words n ++ bs ≠ [] := by
  rcases lengthBytes_cases small n base words hw h with ⟨-, he⟩ | ⟨w, -, -, he⟩ <;> simp [he]

theorem bytes_pos {v : Packed} (h : v.Short) : 0 < v.bytes.length := by
  rw [List.length_pos_iff]
  cases v with
  | nil => simp [bytes]
  | bool b => cases b <;> simp [bytes]
  | num form n => cases form <;> simp [bytes, numBytes]
  | float bs => simp [bytes]
  | str t | bin t => exact lengthBytes_append_ne_nil (by simp) h
  | arr items | map entries => exact lengthBytes_append_ne_nil (by simp) h.1
  | ext data =>
    refine lengthBytes_append_ne_nil (by simp) ?_
    have : data.length ≤ 2 ^ 32 := h
    omega

mutual

/-- Twice the bytes is fuel enough: an item takes one step to be reached and one to be read. -/
theorem reads_value : ∀ (v : Packed) (k : Nat), v.Short → v.Exact → 2 * v.bytes.length ≤ k →
    Reads (takeValue k) v.bytes v
  | v, 0, hv, he, hk => absurd (bytes_pos hv) (by omega)
  | .nil, k + 1, _, _, _ => reads_flat (by decide) (Reads.pure _) k
  | .bool false, k + 1, _, _, _ => reads_flat (by decide) (Reads.pure _) k
  | .bool true, k + 1, _, _, _ => reads_flat (by decide) (Reads.pure _) k
  | .num _ _, k + 1, _, he, _ => reads_num he k
  | .float _, k + 1, _, he, _ => reads_float he k
  | .str _, k + 1, hv, _, _ => reads_str hv k
  | .bin _, k + 1, hv, _, _ => reads_bin hv k
  | .ext _, k + 1, hv, he, _ => reads_ext he hv k
  | .arr items, k + 1, hv, he, hk => by
    obtain ⟨c, ws, length, hc, hs, hl⟩ := reads_arrayStart hv.1
    rw [bytes, hc] at hk ⊢
    simp only [List.length_cons, List.length_append] at hk
    intro rest
    simp only [List.cons_append, takeValue, hs]
    exact (hl.bind (reads_items items k hv.2 he.2 (by omega)).map) rest
  | .map entries, k + 1, hv, he, hk => by
    obtain ⟨c, ws, length, hc, hs, hl⟩ := reads_mapStart hv.1
    rw [bytes, hc] at hk ⊢
    simp only [List.length_cons, List.length_append] at hk
    intro rest
    simp only [List.cons_append, takeValue, hs]
    exact (hl.bind (reads_entries entries k hv.2 he.2 (by omega)).map) rest

theorem reads_items : ∀ (vs : List Packed) (k : Nat), AllItems ShortHere vs →
    AllItems ExactHere vs → 2 * (itemBytes vs).length + 1 ≤ k →
    Reads (takeItems k vs.length) (itemBytes vs) vs
  | [], k, _, _, _ => by
    intro rest
    cases k <;> rfl
  | v :: vs, 0, _, _, hk => absurd hk (by omega)
  | v :: vs, k + 1, hv, he, hk => by
    have hp := bytes_pos hv.1
    rw [itemBytes, List.length_append] at hk
    exact (reads_value v k hv.1 he.1 (by omega)).bind (reads_items vs k hv.2 he.2 (by omega)).map

theorem reads_entries : ∀ (es : List (Packed × Packed)) (k : Nat), AllEntries ShortHere es →
    AllEntries ExactHere es → 2 * (entryBytes es).length + 1 ≤ k →
    Reads (takeEntries k es.length) (entryBytes es) es
  | [], k, _, _, _ => by
    intro rest
    cases k <;> rfl
  | e :: es, 0, _, _, hk => absurd hk (by omega)
  | (key, v) :: es, k + 1, hv, he, hk => by
    have hp := bytes_pos hv.1
    rw [entryBytes, List.length_append, List.length_append] at hk
    rw [entryBytes, List.append_assoc]
    exact (reads_value key k hv.1 he.1 (by omega)).bind
      ((reads_value v k hv.2.1 he.2.1 (by omega)).bind
        (reads_entries es k hv.2.2 he.2.2 (by omega)).map)

end

theorem parse_bytes (h : v.Short) (he : v.Exact) : parse v.bytes = .ok (v, []) := by
  have := reads_value v (2 * v.bytes.length + 2) h he (by omega) []
  rwa [List.append_nil] at this

/-! ## Few bytes -/

mutual

theorem short_of_bytes : ∀ v : Packed, v.bytes.length < 2 ^ 32 → v.Short
  | .nil, _ | .bool _, _ | .num _ _, _ | .float _, _ => trivial
  | .str t, h | .bin t, h => by
    simp only [bytes, textBytes, List.length_append, Text.length_toList] at h
    exact (by omega : t.size < 2 ^ 32)
  | .ext data, h => by
    simp only [bytes, List.length_append] at h
    exact (by omega : data.length ≤ 2 ^ 32)
  | .arr items, h => by
    simp only [bytes, List.length_append] at h
    obtain ⟨hs, hl⟩ := short_of_itemBytes items (by omega)
    exact ⟨(by omega : items.length < 2 ^ 32), hs⟩
  | .map entries, h => by
    simp only [bytes, List.length_append] at h
    obtain ⟨hs, hl⟩ := short_of_entryBytes entries (by omega)
    exact ⟨(by omega : entries.length < 2 ^ 32), hs⟩

/-- Every item has a byte, so there are no more items than bytes. -/
theorem short_of_itemBytes : ∀ vs : List Packed, (itemBytes vs).length < 2 ^ 32 →
    AllItems ShortHere vs ∧ vs.length ≤ (itemBytes vs).length
  | [], _ => ⟨trivial, Nat.zero_le _⟩
  | v :: vs, h => by
    rw [itemBytes, List.length_append] at h ⊢
    have hv := short_of_bytes v (by omega)
    obtain ⟨hs, hl⟩ := short_of_itemBytes vs (by omega)
    have := bytes_pos hv
    exact ⟨⟨hv, hs⟩, by simp only [List.length_cons]; omega⟩

theorem short_of_entryBytes : ∀ es : List (Packed × Packed), (entryBytes es).length < 2 ^ 32 →
    AllEntries ShortHere es ∧ es.length ≤ (entryBytes es).length
  | [], _ => ⟨trivial, Nat.zero_le _⟩
  | (key, v) :: es, h => by
    rw [entryBytes, List.length_append, List.length_append] at h ⊢
    have hk := short_of_bytes key (by omega)
    obtain ⟨hs, hl⟩ := short_of_entryBytes es (by omega)
    have := bytes_pos hk
    exact ⟨⟨hk, short_of_bytes v (by omega), hs⟩, by simp only [List.length_cons]; omega⟩

end

end Packed

end Lifecycle

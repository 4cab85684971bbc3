import CharmRuntime.Lib.ByteOrder

/-!
# Util.Xlater

**Reading integers that another machine wrote** (`PUP::xlater` in `util/pup_xlater.C`). For
each type the xlater has a conversion function and the size of the type on the source machine,
both set up once from the two machine descriptions.

Three things go wrong. The size of `unsigned long long` is never set (`convertSize[Tlonglong]`
is assigned twice). A `long` that grows from 4 to 8 bytes is not sign extended: the cast of its
highest byte is one of an `unsigned char`. For a `long` that shrinks the shifts are by more bits
than the type has. `preserved_iff` says that nothing else does.
-/

namespace CharmRuntime.Util.Xlat

open Lib List Option Nat

/-! ## The source -/

/-- `intType`: the index into `intBytes`. -/
inductive IntType
  | char
  | short
  | int
  | long
  deriving DecidableEq, Repr

/-- `machineInfo`: the part about integers. -/
structure MachineInfo where
  intBytes : IntType → Nat
  intFormat : ByteOrder

/-- `dataType`: the integers. -/
inductive DataType
  | Tchar | Tshort | Tint | Tlong | Tlonglong
  | Tuchar | Tushort | Tuint | Tulong | Tulonglong
  deriving DecidableEq, Repr

/-- `dataConverterFn`: the function of `N`, `in`, `out` and `nElem` gives what is in `out` behind
the call; no value where the behaviour is undefined. -/
abbrev DataConverterFn := Nat → List UInt8 → List UInt8 → Nat → Option (List UInt8)

/-- A loop over the elements, `N` bytes each of `in` and `M` bytes each of `out`. -/
def eachElem (f : List UInt8 → List UInt8 → Option (List UInt8)) (N M : Nat) :
    Nat → List UInt8 → List UInt8 → Option (List UInt8)
  | 0, _, out => some out
  | nElem + 1, inp, out => do
      let d ← f (inp.take N) (out.take M)
      let rest ← eachElem f N M nElem (inp.drop N) (out.drop M)
      return d ++ rest

/-- `cvt_null`. -/
def cvtNull : DataConverterFn := fun _ _ out _ => some out

/-- The loop of `cvt_swap` over the bytes of one element, from `j` bytes on downwards. -/
def swapLoop (N : Nat) (s : List UInt8) : Nat → List UInt8 → List UInt8
  | 0, d => d
  | j + 1, d => swapLoop N s j ((d.set j (s.getD (N - j - 1) 0)).set (N - j - 1) (s.getD j 0))

/-- `cvt_swap`. -/
def cvtSwap : DataConverterFn := fun N inp out nElem =>
  if out.length < N * nElem then none else eachElem (fun s d => some (swapLoop N s (N / 2) d)) N N
    nElem inp out

/-- `x << k` in a type of `P` bits; undefined for `k >= P`. -/
def shl (P x k : Nat) : Option Nat := if k < P then some ((x <<< k) % 2 ^ P) else none

/-- The bits of a type of `w` bits behind the integer promotions. -/
def promoted (w : Nat) : Nat := max 32 w

/-- `(T)s` for a byte, a type `T` of `w` bits, promoted: the bit pattern. -/
def castByte (signed : Bool) (w : Nat) (s : UInt8) : Nat :=
  if signed ∧ w = 8 ∧ 128 ≤ s.toNat then s.toNat + (2 ^ promoted w - 2 ^ 8) else s.toNat

/-- The first `j` rounds of `ret|=((uT)s[bigIdx])<<(8*j)`, with `s` the bytes in the order of
`bigIdx`. -/
def orBytes (w : Nat) (s : List UInt8) : Nat → Option Nat
  | 0 => some 0
  | j + 1 => do
      let ret ← orBytes w s j
      let x ← shl (promoted w) (castByte false w (s.getD j 0)) (8 * j)
      return (ret ||| x) % 2 ^ w

/-- One element of `def_cvtFunc`: the bits of `ret`. -/
def cvtElem (signed : Bool) (w N : Nat) (s : List UInt8) : Option Nat := do
  let ret ← orBytes w s (N - 1)
  let x ← shl (promoted w) (castByte signed w (s.getD (N - 1) 0)) (8 * (N - 1))
  return (ret ||| x) % 2 ^ w

/-- `def_cvtFunc` on machine `cur`: from integers in byte order `order` to the integers `rT` of
`size` bytes. -/
def cvtFunc (cur : MachineInfo) (order : ByteOrder) (signed : Bool) (size : Nat) :
    DataConverterFn :=
  fun N inp out nElem =>
    eachElem (fun s _ => (cvtElem signed (8 * size) N (order.arrange s)).map fun ret =>
      cur.intFormat.arrange (ByteOrder.toBytes size ret)) N size nElem inp out

/-- `cvt_intTable`. -/
def cvtIntTable (cur : MachineInfo) (srcFormat : ByteOrder) (isUnsigned : Bool)
    (intType : IntType) : DataConverterFn :=
  cvtFunc cur srcFormat (!isUnsigned) (cur.intBytes intType)

/-- `xlater`. -/
structure Xlater where
  convertFn : DataType → DataConverterFn
  convertSize : DataType → Nat

/-- `setConverterInt`. -/
def Xlater.setConverterInt (x : Xlater) (src cur : MachineInfo) (isUnsigned : Bool)
    (intType : IntType) (dest : DataType) :
    Xlater where
  convertFn := Function.update x.convertFn dest
    (if src.intFormat = cur.intFormat ∧ src.intBytes intType = cur.intBytes intType then cvtNull
    else cvtIntTable cur src.intFormat isUnsigned intType)
  convertSize := Function.update x.convertSize dest (src.intBytes intType)

/-- `xlater::xlater`: the integers, set up in memory that holds `mem`. -/
def xlater (src cur : MachineInfo) (mem : Xlater) : Xlater :=
  let x := mem.setConverterInt src cur false .char .Tchar
  let x := x.setConverterInt src cur false .short .Tshort
  let x := x.setConverterInt src cur false .int .Tint
  let x := x.setConverterInt src cur false .long .Tlong
  let x := x.setConverterInt src cur true .char .Tuchar
  let x := x.setConverterInt src cur true .short .Tushort
  let x := x.setConverterInt src cur true .int .Tuint
  let x := x.setConverterInt src cur true .long .Tulong
  let longlong := if src.intFormat = cur.intFormat then cvtNull else cvtSwap
  let convertFn :=
    Function.update (Function.update x.convertFn .Tulonglong longlong) .Tlonglong longlong
  -- `convertSize[Tlonglong]=convertSize[Tlonglong]=sizeof(CMK_PUP_LONG_LONG)`
  let convertSize := Function.update (Function.update x.convertSize .Tlonglong 8) .Tlonglong 8
  { convertFn, convertSize }

/-- `fromMem::bytes`: what is read, and the position behind it. -/
def readBytes (buf : List UInt8) (pos n itemSize : Nat) : Option (List UInt8 × Nat) :=
  if pos + n * itemSize ≤
    buf.length then some ((buf.drop pos).take (n * itemSize), pos + n * itemSize) else none

/-- `xlater::bytes` into an object that holds `ptr`: what it holds then, and the position. -/
def Xlater.bytes (x : Xlater) (data : List UInt8) (pos : Nat) (ptr : List UInt8) (n itemSize : Nat)
    (t : DataType) :
    Option (List UInt8 × Nat) :=
  if x.convertSize t = itemSize then do
    let (ptr, pos) ← readBytes data pos n itemSize
    let out ← x.convertFn t itemSize ptr ptr n
    return (out, pos)
  else do
    let (buf, pos) ← readBytes data pos n (x.convertSize t)
    let out ← x.convertFn t (x.convertSize t) buf ptr n
    return (out, pos)

/-- `sizeof` of the types on a machine. -/
def MachineInfo.sizeOf (m : MachineInfo) : DataType → Nat
  | .Tchar | .Tuchar => m.intBytes .char
  | .Tshort | .Tushort => m.intBytes .short
  | .Tint | .Tuint => m.intBytes .int
  | .Tlong | .Tulong => m.intBytes .long
  | .Tlonglong | .Tulonglong => 8

def DataType.signed : DataType → Bool
  | .Tchar | .Tshort | .Tint | .Tlong | .Tlonglong => true
  | .Tuchar | .Tushort | .Tuint | .Tulong | .Tulonglong => false

/-- An item: its type, the value that was written, and what the object holds into which it is read.
-/
structure Item where
  t : DataType
  value : Int
  ptr : List UInt8
  deriving DecidableEq, Repr

/-- What the source machine writes for some items. -/
def written (src : MachineInfo) (items : List Item) : List UInt8 :=
  items.flatMap fun item => src.intFormat.encode (src.sizeOf item.t) item.value

/-- `p(v)` for one item after the other: the objects, with the position behind each. -/
def Xlater.readItems (x : Xlater) (cur : MachineInfo) (data : List UInt8) :
    Nat → List Item → Option (List (List UInt8 × Nat))
  | _, [] => some []
  | pos, item :: items => do
      let r ← x.bytes data pos item.ptr 1 (cur.sizeOf item.t) item.t
      let rs ← x.readItems cur data r.2 items
      return r :: rs

/-! ## Reading what was written -/

/-- The machines: short of 2, int of 4, long of 4 or 8 bytes. -/
structure MachineInfo.Supported (m : MachineInfo) : Prop where
  char : m.intBytes .char = 1
  short : m.intBytes .short = 2
  int : m.intBytes .int = 4
  long : m.intBytes .long = 4 ∨ m.intBytes .long = 8

/-- An item as its writer and its reader have it: the value fits the type on the source machine, the
object has the size of the type on the local one. -/
structure Item.Ok (src cur : MachineInfo) (item : Item) : Prop where
  fits : ByteOrder.Fits item.t.signed (src.sizeOf item.t) item.value
  object : item.ptr.length = cur.sizeOf item.t

/-- An item at `pos` is read right: the writer's position behind it, and the value if it can be
represented. -/
structure ReadRight (src cur : MachineInfo) (pos : Nat) (item : Item) (r : List UInt8 × Nat) :
    Prop where
  position : r.2 = pos + src.sizeOf item.t
  value : ByteOrder.Fits item.t.signed (cur.sizeOf item.t) item.value →
    r.1.length = cur.sizeOf item.t ∧ cur.intFormat.decode item.t.signed r.1 = item.value

/-- All items are read right. -/
def Preserved (src cur : MachineInfo) : Nat → List Item → List (List UInt8 × Nat) → Prop
  | _, [], [] => True
  | pos, item :: items, r :: rs => ReadRight src cur pos item r ∧ Preserved src cur r.2 items rs
  | _, _, _ => False

/-- The items that are read right, with `mem` in the memory of the xlater: no `unsigned long long`,
unless the memory happens to hold its size; no `long` from a machine with a longer one, and no
negative `long` from a machine with a shorter one. -/
def Converts (src cur : MachineInfo) (mem : Xlater) (item : Item) : Prop :=
  match item.t with
  | .Tlong =>
    src.intBytes .long = cur.intBytes .long ∨ src.intBytes .long < cur.intBytes .long ∧
    0 ≤ item.value
  | .Tulong => src.intBytes .long ≤ cur.intBytes .long
  | .Tulonglong => mem.convertSize .Tulonglong = 8
  | _ => True

/-! ## One element -/

theorem le_promoted (w : Nat) : w ≤ promoted w := le_max_right 32 w

/-- One byte more, in a type of `w` bits. -/
theorem or_shl (w : Nat) {a k : Nat} (ha : a < 2 ^ k) (b : Nat) :
    (a % 2 ^ w ||| (b <<< k) % 2 ^ promoted w) % 2 ^ w = (a + b * 2 ^ k) % 2 ^ w := by
  have hdvd : 2 ^ w ∣ 2 ^ promoted w := pow_dvd_pow 2 (le_promoted w)
  rw [or_mod_two_pow, mod_mod, mod_mod_of_dvd _ hdvd, ← or_mod_two_pow, Nat.or_comm,
    ← shiftLeft_add_eq_or_of_lt ha, shiftLeft_eq, add_comm]

theorem castByte_mod (signed : Bool) (w : Nat) (s : UInt8) :
    castByte signed w s % 2 ^ w = s.toNat % 2 ^ w := by
  unfold castByte
  split
  next hneg =>
    obtain ⟨-, rfl, -⟩ := hneg
    rw [promoted, add_mod]
    simp
  next => rfl

theorem shl_of_lt {P k : Nat} (h : k < P) (x : Nat) :
    shl P x k = some ((x <<< k) % 2 ^ P) := if_pos h

variable {w : Nat} {s : List UInt8} {t : DataType} {item : Item}

theorem orBytes_eq {j : Nat} (hj : j ≤ s.length) (hw : 8 * (j - 1) < promoted w) :
    orBytes w s j = some (ByteOrder.ofBytes (s.take j) % 2 ^ w) := by
  induction j with
  | zero => exact congrArg some (zero_mod _).symm
  | succ j ih =>
    have hlt : 8 * j < promoted w := by simpa using hw
    have htake : s.take (j + 1) = s.take j ++ [s.getD j 0] := by
      rw [take_add_one, getD_eq_getElem?_getD, getElem?_eq_getElem (by omega)]
      rfl
    have hlen : (s.take j).length = j := length_take_of_le (by omega)
    have hbytes := ByteOrder.ofBytes_lt (s.take j)
    rw [hlen] at hbytes
    have hcast : castByte false w (s.getD j 0) = (s.getD j 0).toNat := if_neg (by simp)
    rw [orBytes, ih (by omega) (by omega), shl_of_lt hlt, hcast, htake, ByteOrder.ofBytes_append,
      hlen, ← or_shl w hbytes]
    rfl

/-- **An element is put together** from its bytes. -/
theorem cvtElem_eq (signed : Bool) {N : Nat} (hlen : s.length = N) (hN : 0 < N)
    (hw : 8 * (N - 1) < promoted w) :
    cvtElem signed w N s = some (ByteOrder.ofBytes s % 2 ^ w) := by
  obtain ⟨n, rfl⟩ := exists_eq_succ_of_ne_zero (ne_of_gt hN)
  have hn : n.succ - 1 = n := rfl
  rw [hn] at hw
  have htake : s = s.take n ++ [s.getD n 0] := by
    have hall : s.take (n + 1) = s := take_of_length_le (le_of_eq hlen)
    conv_lhs => rw [← hall]
    rw [take_add_one, getD_eq_getElem?_getD, getElem?_eq_getElem (by omega)]
    rfl
  have htakelen : (s.take n).length = n := length_take_of_le (by omega)
  have hbytes := ByteOrder.ofBytes_lt (s.take n)
  rw [htakelen] at hbytes
  have hvalue :
    ByteOrder.ofBytes s = ByteOrder.ofBytes (s.take n) + (s.getD n 0).toNat * 2 ^ (8 * n) := by
    conv_lhs => rw [htake]
    rw [ByteOrder.ofBytes_append, htakelen]
  rw [cvtElem, hn, orBytes_eq (by omega) (by omega), shl_of_lt hw, hvalue]
  simp only [bind_eq_bind, bind_some, Option.pure_def]
  rw [or_shl w hbytes, add_mod, mul_mod, castByte_mod, ← mul_mod, ← add_mod]

theorem eachElem_one {f : List UInt8 → List UInt8 → Option (List UInt8)} {N M : Nat}
    {inp out : List UInt8}
    (hinp : inp.length = N) (hout : out.length = M) : eachElem f N M 1 inp out = f inp out := by
  have hdrop : out.drop M = [] := drop_of_length_le (le_of_eq hout)
  rw [eachElem, take_of_length_le (le_of_eq hinp), take_of_length_le (le_of_eq hout)]
  cases f inp out with
  | none => rfl
  | some d =>
    simp only [bind_eq_bind, bind_some, eachElem, hdrop, append_nil]
    rfl

/-- An integer of `N` bytes is converted to one of `M`. -/
theorem cvtFunc_encode (cur : MachineInfo) (order : ByteOrder) (signed : Bool) {N M : Nat}
    (hN : 0 < N) (hM : N ≤ M) (v : Int)
    {ptr : List UInt8} (hptr : ptr.length = M) :
    cvtFunc cur order signed M N (order.encode N v) ptr 1 =
      some (cur.intFormat.arrange (ByteOrder.toBytes M (ByteOrder.patternOf N v))) := by
  have hpattern := ByteOrder.patternOf_lt N v
  have hle : 2 ^ (8 * N) ≤ 2 ^ (8 * M) := Nat.pow_le_pow_right (by decide) (by omega)
  have hw := le_promoted (8 * M)
  rw [cvtFunc, eachElem_one (order.length_encode N v) hptr, ByteOrder.encode,
    ByteOrder.arrange_arrange, cvtElem_eq signed (ByteOrder.length_toBytes ..) hN (by omega),
    ByteOrder.ofBytes_toBytes hpattern, mod_eq_of_lt (lt_of_lt_of_le hpattern hle)]
  rfl

theorem cvtSwap_eight (h : s.length = 8) : cvtSwap 8 s s 1 = some s.reverse := by
  obtain ⟨a, b, c, d, e, f, g, i, rfl⟩ : ∃ a b c d e f g i, s = [a, b, c, d, e, f, g, i] := by
    match s, h with
    | [a, b, c, d, e, f, g, i], _ => exact ⟨a, b, c, d, e, f, g, i, rfl⟩
  rfl

/-! ## One item -/

variable {src cur : MachineInfo} {mem : Xlater}

/-- The two types of eight bytes on every machine. -/
def DataType.isLongLong : DataType → Bool
  | .Tlonglong | .Tulonglong => true
  | _ => false

theorem xlater_convertSize (src cur : MachineInfo) (mem : Xlater) (ht : t ≠ .Tulonglong) :
    (xlater src cur mem).convertSize t = src.sizeOf t := by
  cases t with
  | Tulonglong => exact absurd rfl ht
  | _ => rfl

theorem xlater_convertFn (src cur : MachineInfo) (mem : Xlater) (ht : t.isLongLong = false) :
    (xlater src cur mem).convertFn t =
      if src.intFormat = cur.intFormat ∧ src.sizeOf t = cur.sizeOf t then cvtNull
      else cvtFunc cur src.intFormat t.signed (cur.sizeOf t) := by
  cases t with
  | Tlonglong => cases ht
  | Tulonglong => cases ht
  | _ => rfl

theorem xlater_longlong (src cur : MachineInfo) (mem : Xlater) (ht : t.isLongLong = true) :
    (xlater src cur mem).convertFn t = if src.intFormat =
    cur.intFormat then cvtNull else cvtSwap := by
  cases t with
  | Tlonglong => rfl
  | Tulonglong => rfl
  | _ => cases ht

theorem readBytes_at (pre bs rest : List UInt8) (n itemSize : Nat) (h : bs.length = n * itemSize) :
    readBytes (pre ++ (bs ++ rest)) pre.length n itemSize =
    some (bs, pre.length + n * itemSize) := by
  rw [readBytes, if_pos, drop_left, take_left' h]
  simp only [length_append]
  omega

theorem MachineInfo.Supported.sizeOf_pos {m : MachineInfo} (h : m.Supported) (t : DataType) :
    0 < m.sizeOf t := by
  have hlong : 0 < m.intBytes .long := by
    cases h.long with
    | inl h4 => omega
    | inr h8 => omega
  have hchar := h.char
  have hshort := h.short
  have hint := h.int
  cases t <;> simp only [sizeOf] <;> omega

theorem convertFn_same (hsrc : src.Supported) (hsize : src.sizeOf t = cur.sizeOf t) (v : Int) :
    (xlater src cur mem).convertFn t (src.sizeOf t) (src.intFormat.encode (src.sizeOf t) v)
      (src.intFormat.encode (src.sizeOf t) v) 1 = some (cur.intFormat.encode (src.sizeOf t) v) := by
  cases ht : t.isLongLong with
  | true =>
    have height : src.sizeOf t = 8 := by
      cases t with
      | Tlonglong => rfl
      | Tulonglong => rfl
      | _ => cases ht
    rw [xlater_longlong src cur mem ht, height]
    split
    next hformat => rw [hformat, cvtNull]
    next hformat =>
      rw [cvtSwap_eight (ByteOrder.length_encode ..), ByteOrder.encode_reverse hformat]
  | false =>
    rw [xlater_convertFn src cur mem ht]
    split
    next hboth => rw [hboth.1, cvtNull]
    next =>
      rw [hsize]
      exact cvtFunc_encode cur _ _ (hsize ▸ hsrc.sizeOf_pos t) (le_refl _) v
        (ByteOrder.length_encode ..)

theorem read_same (hsrc : src.Supported) (hok : item.Ok src cur)
    (hconvert : (xlater src cur mem).convertSize item.t = src.sizeOf item.t)
    (hsize : src.sizeOf item.t = cur.sizeOf item.t) (pre rest : List UInt8) :
    ∃ r, (xlater src cur mem).bytes
      (pre ++ (src.intFormat.encode (src.sizeOf item.t) item.value ++ rest)) pre.length
      item.ptr 1 (cur.sizeOf item.t) item.t = some r ∧ ReadRight src cur pre.length item r := by
  have hread :=
    readBytes_at pre (src.intFormat.encode (src.sizeOf item.t) item.value) rest 1
      (src.sizeOf item.t) (by simp)
  rw [one_mul] at hread
  refine ⟨(cur.intFormat.encode (src.sizeOf item.t) item.value, pre.length + src.sizeOf item.t), ?_,
    rfl, fun _ => ⟨?_, ?_⟩⟩
  · rw [Xlater.bytes, if_pos (hconvert.trans hsize), ← hsize, hread]
    simp only [bind_eq_bind, bind_some, convertFn_same hsrc hsize]
    rfl
  · rw [ByteOrder.length_encode, hsize]
  · exact ByteOrder.decode_encode _ hok.fits

theorem bytes_of_ne (mem : Xlater) (ht : t.isLongLong = false) (hsize : src.sizeOf t ≠ cur.sizeOf t)
    (v : Int)
    (ptr pre rest : List UInt8) :
    (xlater src cur mem).bytes (pre ++ (src.intFormat.encode (src.sizeOf t) v ++ rest)) pre.length
      ptr 1 (cur.sizeOf t) t =
      (cvtFunc cur src.intFormat t.signed (cur.sizeOf t) (src.sizeOf t)
        (src.intFormat.encode (src.sizeOf t) v) ptr 1).map
        (·, pre.length + src.sizeOf t) := by
  have hne : t ≠ .Tulonglong := by
    rintro rfl
    cases ht
  have hconvert := xlater_convertSize src cur mem hne
  have hread :=
    readBytes_at pre (src.intFormat.encode (src.sizeOf t) v) rest 1 (src.sizeOf t) (by simp)
  rw [one_mul] at hread
  rw [Xlater.bytes, if_neg (hconvert ▸ hsize), hconvert, hread, xlater_convertFn src cur mem ht,
    if_neg fun h => hsize h.2]
  simp only [bind_eq_bind, bind_some]
  cases cvtFunc cur src.intFormat t.signed (cur.sizeOf t) (src.sizeOf t)
    (src.intFormat.encode (src.sizeOf t) v) ptr 1 with
  | none => rfl
  | some out => rfl

theorem decode_widened (signed : Bool) (o : ByteOrder) (v : Int) :
    o.decode signed (o.arrange (ByteOrder.toBytes 8 (ByteOrder.patternOf 4 v))) =
    (ByteOrder.patternOf 4 v : Int) := by
  have hlt := ByteOrder.patternOf_lt 4 v
  rw [ByteOrder.decode_arrange o signed (lt_trans hlt (by decide)), ByteOrder.valueOf, if_neg]
  rintro ⟨-, hle⟩
  omega

theorem MachineInfo.sizeOf_long (m : MachineInfo) (ht : t = .Tlong ∨ t = .Tulong) :
    m.sizeOf t = m.intBytes .long := by
  rcases ht with rfl | rfl
  · rfl
  · rfl

theorem isLongLong_of_long (ht : t = .Tlong ∨ t = .Tulong) : t.isLongLong = false := by
  rcases ht with rfl | rfl
  · rfl
  · rfl

theorem ne_ulonglong_of_long (ht : t = .Tlong ∨ t = .Tulong) : t ≠ .Tulonglong := by
  rintro rfl
  rcases ht with h | h
  · cases h
  · cases h

/-- A long of four bytes that is read as one of eight is read right exactly if it is not negative.
-/
theorem read_widened (hok : item.Ok src cur) (ht : item.t = .Tlong ∨ item.t = .Tulong)
    (hsrc4 : src.sizeOf item.t = 4) (hcur8 : cur.sizeOf item.t = 8) (pre rest : List UInt8) :
    (∃ r, (xlater src cur mem).bytes
      (pre ++ (src.intFormat.encode (src.sizeOf item.t) item.value ++ rest)) pre.length
      item.ptr 1 (cur.sizeOf item.t) item.t = some r ∧ ReadRight src cur pre.length item r) ↔
      0 ≤ item.value := by
  have hbytes :=
    bytes_of_ne mem (isLongLong_of_long ht)
    (by omega : src.sizeOf item.t ≠ cur.sizeOf item.t) item.value item.ptr pre rest
  rw [hcur8, hsrc4, cvtFunc_encode cur src.intFormat item.t.signed (by decide)
    (by decide) item.value
    (hok.object.trans hcur8)] at hbytes
  rw [hcur8, hsrc4, hbytes]
  have hfits := hok.fits
  rw [hsrc4] at hfits
  -- it fits into eight bytes
  have hfits8 : ByteOrder.Fits item.t.signed (cur.sizeOf item.t) item.value := by
    rw [hcur8]
    unfold ByteOrder.Fits at hfits ⊢
    split
    next hs =>
      rw [if_pos hs] at hfits
      omega
    next hs =>
      rw [if_neg hs] at hfits
      omega
  have hhigh : item.value < 2 ^ (8 * 4) := by
    unfold ByteOrder.Fits at hfits
    split at hfits <;> omega
  constructor
  · rintro ⟨r, hr, hright⟩
    cases hr
    have hvalue := (hright.value hfits8).2
    rw [decode_widened] at hvalue
    rw [← hvalue]
    exact Int.natCast_nonneg _
  · intro h0
    refine ⟨_, rfl, by rw [hsrc4], fun _ => ⟨?_, ?_⟩⟩
    · rw [hcur8, ByteOrder.length_arrange, ByteOrder.length_toBytes]
    · rw [decode_widened]
      exact ByteOrder.patternOf_of_nonneg h0 hhigh

theorem read_narrowed (hok : item.Ok src cur) (ht : item.t.isLongLong = false)
    (hsrc8 : src.sizeOf item.t = 8) (hcur4 : cur.sizeOf item.t = 4) (pre rest : List UInt8) :
    (xlater src cur mem).bytes
      (pre ++ (src.intFormat.encode (src.sizeOf item.t) item.value ++ rest)) pre.length
      item.ptr 1 (cur.sizeOf item.t) item.t = none := by
  rw [bytes_of_ne mem ht (by omega), hcur4, hsrc8, cvtFunc,
    eachElem_one (ByteOrder.length_encode ..) (hok.object.trans hcur4)]
  rfl

/-- Where the size of `unsigned long long` is another number, the position is wrong. -/
theorem read_unset (ht : item.t = .Tulonglong) (hmem : mem.convertSize .Tulonglong ≠ 8)
    (data : List UInt8)
    (pos : Nat) :
    ¬ ∃ r, (xlater src cur mem).bytes data pos item.ptr 1 (cur.sizeOf item.t) item.t = some r ∧
      ReadRight src cur pos item r := by
  rintro ⟨r, hr, hright⟩
  have hposition := hright.position
  have hconvert : (xlater src cur mem).convertSize .Tulonglong = mem.convertSize .Tulonglong := rfl
  rw [ht] at hr hposition
  rw [Xlater.bytes, hconvert,
    if_neg (show mem.convertSize .Tulonglong ≠ cur.sizeOf .Tulonglong from hmem)] at hr
  obtain ⟨⟨buf, pos'⟩, hread, hr⟩ := bind_eq_some_iff.mp hr
  obtain ⟨out, -, hr⟩ := bind_eq_some_iff.mp hr
  cases hr
  unfold readBytes at hread
  split at hread
  next =>
    cases hread
    change pos + 1 * mem.convertSize .Tulonglong = pos + 8 at hposition
    omega
  next => cases hread

/-- A `long` or `unsigned long` is read right exactly if it converts. -/
theorem read_long (mem : Xlater) (hsrc : src.Supported) (hcur : cur.Supported)
    (hok : item.Ok src cur)
    (ht : item.t = .Tlong ∨ item.t = .Tulong) (pre rest : List UInt8) :
    (∃ r, (xlater src cur mem).bytes
      (pre ++ (src.intFormat.encode (src.sizeOf item.t) item.value ++ rest)) pre.length
      item.ptr 1 (cur.sizeOf item.t) item.t = some r ∧ ReadRight src cur pre.length item r) ↔
        src.intBytes .long = cur.intBytes .long ∨ src.intBytes .long < cur.intBytes .long ∧
        0 ≤ item.value := by
  have hs := hsrc.long
  have hc := hcur.long
  have hsrclong := src.sizeOf_long ht
  have hcurlong := cur.sizeOf_long ht
  by_cases hsame : src.intBytes .long = cur.intBytes .long
  · have hconvert := xlater_convertSize src cur mem (ne_ulonglong_of_long ht)
    exact iff_of_true (read_same hsrc hok hconvert (by rw [hsrclong, hcurlong, hsame]) pre rest)
      (.inl hsame)
  · by_cases hlt : src.intBytes .long < cur.intBytes .long
    · rw [read_widened hok ht (by omega) (by omega)]
      exact ⟨fun h0 => .inr ⟨hlt, h0⟩, fun h => (h.resolve_left hsame).2⟩
    · refine iff_of_false (fun h => ?_) (fun h => hlt (h.resolve_left hsame).1)
      obtain ⟨r, hr, -⟩ := h
      rw [read_narrowed hok (isLongLong_of_long ht) (by omega) (by omega)] at hr
      cases hr

theorem sizeOf_eq (hsrc : src.Supported) (hcur : cur.Supported)
    (hlong : ¬ (t = .Tlong ∨ t = .Tulong)) :
    src.sizeOf t = cur.sizeOf t := by
  have hshort := hsrc.short.trans hcur.short.symm
  have hint := hsrc.int.trans hcur.int.symm
  have hchar := hsrc.char.trans hcur.char.symm
  cases t with
  | Tchar => exact hchar
  | Tuchar => exact hchar
  | Tshort => exact hshort
  | Tushort => exact hshort
  | Tint => exact hint
  | Tuint => exact hint
  | Tlonglong => rfl
  | Tulonglong => rfl
  | Tlong => exact absurd (.inl rfl) hlong
  | Tulong => exact absurd (.inr rfl) hlong

/-- **One item** is read right exactly if it converts. -/
theorem read_item (mem : Xlater) (hsrc : src.Supported) (hcur : cur.Supported)
    (hok : item.Ok src cur)
    (pre rest : List UInt8) :
    (∃ r, (xlater src cur mem).bytes
      (pre ++ (src.intFormat.encode (src.sizeOf item.t) item.value ++ rest)) pre.length
      item.ptr 1 (cur.sizeOf item.t) item.t = some r ∧ ReadRight src cur pre.length item r) ↔
      Converts src cur mem item := by
  by_cases hlong : item.t = .Tlong ∨ item.t = .Tulong
  · rw [read_long mem hsrc hcur hok hlong]
    rcases hlong with ht | ht
    · rw [Converts, ht]
    · have h0 : 0 ≤ item.value := by
        have hfits := hok.fits
        rw [ht] at hfits
        exact hfits.1
      rw [Converts, ht]
      show _ ↔ src.intBytes .long ≤ cur.intBytes .long
      omega
  · have hsize := sizeOf_eq hsrc hcur hlong
    by_cases hull : item.t = .Tulonglong
    · have hconverts : Converts src cur mem item ↔ mem.convertSize .Tulonglong = 8 := by
        rw [Converts, hull]
      rw [hconverts]
      by_cases hmem : mem.convertSize .Tulonglong = 8
      · have hconvert : (xlater src cur mem).convertSize item.t = src.sizeOf item.t := by
          rw [hull]
          exact hmem
        exact iff_of_true (read_same hsrc hok hconvert hsize pre rest) hmem
      · exact iff_of_false (read_unset hull hmem _ _) hmem
    · have hconverts : Converts src cur mem item := by
        cases ht : item.t with
        | Tlong => exact absurd (.inl ht) hlong
        | Tulong => exact absurd (.inr ht) hlong
        | Tulonglong => exact absurd ht hull
        | _ => simp only [Converts, ht]
      exact iff_of_true (read_same hsrc hok (xlater_convertSize src cur mem hull) hsize pre rest)
        hconverts

/-! ## All items -/

theorem readItems_iff (mem : Xlater) (hsrc : src.Supported) (hcur : cur.Supported)
    {items : List Item} (hok : ∀ item ∈ items, item.Ok src cur)
    (pre rest : List UInt8) :
    (∃ rs, (xlater src cur mem).readItems cur (pre ++ (written src items ++ rest)) pre.length
      items = some rs ∧
      Preserved src cur pre.length items rs) ↔ ∀ item ∈ items, Converts src cur mem item := by
  induction items generalizing pre with
  | nil => exact iff_of_true ⟨[], rfl, trivial⟩ fun item h => absurd h not_mem_nil
  | cons item items ih =>
    have hitem := read_item mem hsrc hcur (hok item mem_cons_self) pre (written src items ++ rest)
    have hrest := ih (fun x hx => hok x (mem_cons_of_mem item hx))
      (pre ++ src.intFormat.encode (src.sizeOf item.t) item.value)
    rw [length_append, ByteOrder.length_encode, append_assoc] at hrest
    have hdata : pre ++ (written src (item :: items) ++ rest) =
        pre ++ (src.intFormat.encode (src.sizeOf item.t) item.value ++
        (written src items ++ rest)) := by
      rw [written, flatMap_cons, append_assoc]
      rfl
    rw [hdata, forall_mem_cons, ← hitem, ← hrest]
    constructor
    · rintro ⟨rs, hread, hpreserved⟩
      obtain ⟨r, hr, hread⟩ := bind_eq_some_iff.mp hread
      obtain ⟨rs', hrs, hread⟩ := bind_eq_some_iff.mp hread
      cases hread
      have hposition := hpreserved.1.position
      rw [hposition] at hrs
      exact ⟨⟨r, hr, hpreserved.1⟩, rs', hrs, hposition ▸ hpreserved.2⟩
    · rintro ⟨⟨r, hr, hright⟩, rs, hrs, hpreserved⟩
      refine ⟨r :: rs, ?_, hright, hright.position ▸ hpreserved⟩
      rw [← hright.position] at hrs
      simp only [Xlater.readItems, hr, bind_eq_bind, bind_some, hrs]
      rfl

/-- **Which integers another machine reads right**: for every pair of machines and every sequence of
items, all items are read right, each at the writer's position, exactly if every item converts. -/
theorem preserved_iff {src cur : MachineInfo} (hsrc : src.Supported) (hcur : cur.Supported)
    {items : List Item}
    (hok : ∀ item ∈ items, item.Ok src cur) (mem : Xlater) :
    (∃ rs, (xlater src cur mem).readItems cur (written src items) 0 items = some rs ∧
    Preserved src cur 0 items rs) ↔
      ∀ item ∈ items, Converts src cur mem item := by
  have h := readItems_iff mem hsrc hcur hok [] []
  rwa [append_nil] at h

/-- A little-endian machine. -/
def littleMachine (long : Nat) : MachineInfo where
  intBytes
    | .char => 1
    | .short => 2
    | .int => 4
    | .long => long
  intFormat := .little

theorem littleMachine_supported {long : Nat} (h : long = 4 ∨ long = 8) :
    (littleMachine long).Supported := ⟨rfl, rfl, rfl, h⟩

/-- Memory without anything in it. -/
def zeroed : Xlater where
  convertFn _ := cvtNull
  convertSize _ := 0

/-- A negative short and a long that is not negative, from a machine with longs of 4 bytes. -/
def shortAndLong : List Item := [⟨.Tshort, -2, [0, 0]⟩, ⟨.Tlong, 7, [0, 0, 0, 0, 0, 0, 0, 0]⟩]

theorem preserved_iff_shortAndLong : ∃ rs,
    (xlater (littleMachine 4) (littleMachine 8) zeroed).readItems (littleMachine 8)
      (written (littleMachine 4) shortAndLong) 0 shortAndLong = some rs ∧
    Preserved (littleMachine 4) (littleMachine 8) 0 shortAndLong rs := by
  refine (preserved_iff (littleMachine_supported (.inl rfl)) (littleMachine_supported (.inr rfl))
    (fun item h => ?_)
    zeroed).mpr fun item h => ?_
  · obtain rfl | h := mem_cons.mp h
    · exact ⟨by decide, rfl⟩
    · cases mem_singleton.mp h
      exact ⟨by decide, rfl⟩
  · obtain rfl | h := mem_cons.mp h
    · exact trivial
    · cases mem_singleton.mp h
      exact .inr ⟨by decide, by decide⟩

/-- The long -2 of 4 bytes is read as 4294967294 into 8 bytes. -/
theorem not_preserved_negative :
    ¬ ∃ rs, (xlater (littleMachine 4) (littleMachine 8) zeroed).readItems (littleMachine 8)
        (written (littleMachine 4) [⟨.Tlong, -2, [0, 0, 0, 0, 0, 0, 0, 0]⟩]) 0
        [⟨.Tlong, -2, [0, 0, 0, 0, 0, 0, 0, 0]⟩] = some rs ∧
      Preserved (littleMachine 4) (littleMachine 8) 0
        [⟨.Tlong, -2, [0, 0, 0, 0, 0, 0, 0, 0]⟩] rs := by
  rintro ⟨rs, hread, hpreserved⟩
  have hrun : (xlater (littleMachine 4) (littleMachine 8) zeroed).readItems (littleMachine 8)
      (written (littleMachine 4) [⟨.Tlong, -2, [0, 0, 0, 0, 0, 0, 0, 0]⟩]) 0
      [⟨.Tlong, -2, [0, 0, 0, 0, 0, 0, 0, 0]⟩] = some [([254, 255, 255, 255, 0, 0, 0, 0], 4)] := by
        decide
  cases hrun.symm.trans hread
  have hvalue := (hpreserved.1.value (by decide)).2
  exact absurd hvalue (by decide)

end CharmRuntime.Util.Xlat

import Lark.Base.Fold
import Lark.Column.Exec.Conversions

namespace Lark.Column

open Lark.Base

def sizeMax : Nat := 2 ^ 64

-- `max_size()` of a vector of bytes.
def vectorMax : Nat := 2 ^ 63 - 1

def dtypeSize : DType → Nat
  | .scalar .int32 => 4
  | .scalar .int64 => 8
  | .scalar .float32 => 4
  | .scalar .float64 => 8
  | .q8_0 => 36

def dtypeBytes (count : Nat) : DType → Nat
  | .q8_0 => (count + Tensor.q8BlockSize - 1) % sizeMax / Tensor.q8BlockSize * 36 % sizeMax
  | .scalar t => count * dtypeSize (.scalar t) % sizeMax

-- What `dtype_bytes` says once nothing wraps around.
def exactBytes (count : Nat) : DType → Nat
  | .q8_0 => Tensor.numBlocks count * 36
  | .scalar t => count * dtypeSize (.scalar t)

def elemEnd (i : Nat) : DType → Nat
  | .q8_0 => (i / Tensor.q8BlockSize + 1) * 36
  | .scalar t => (i + 1) * dtypeSize (.scalar t)

inductive StorageError where
  | badAlloc
  | exn (e : Exn)
  deriving DecidableEq

-- A tensor object without its elements: the dtype, the bytes in `data_`, `size_` and `capacity_`.
structure Storage where
  dtype : DType
  bytes : Nat
  size : Nat
  capacity : Nat
  deriving DecidableEq

namespace Storage

section Operations

-- Which byte counts the allocator grants during a call.
variable (alloc : Nat → Bool)

def allocate (bytes : Nat) : Except StorageError Nat :=
  if bytes ≤ vectorMax ∧ alloc bytes then .ok bytes else .error .badAlloc

def ensureCapacity (s : Storage) (required : Nat) : Except StorageError Storage :=
  if required ≤ s.capacity then .ok s
  else do
    let newCap := max required (s.capacity * 2 % sizeMax)
    let bytes ← allocate alloc (dtypeBytes newCap s.dtype)
    .ok { s with bytes, capacity := newCap }

def default : Storage := ⟨.float64, 0, 0, 0⟩

def construct (dtype : DType) (capacity : Nat) : Except StorageError Storage :=
  if 0 < capacity then ensureCapacity alloc ⟨dtype, 0, 0, 0⟩ capacity else .ok ⟨dtype, 0, 0, 0⟩

def zeros (n : Nat) (dtype : DType) : Except StorageError Storage := do
  let t ← construct alloc dtype n
  let bytes ← allocate alloc (dtypeBytes n dtype)
  .ok { t with bytes, size := n, capacity := n }

def full (n : Nat) (dtype : DType) : Except StorageError Storage := do
  let t ← construct alloc dtype n
  match dtype with
  | .scalar _ => .ok { t with size := n, capacity := n }
  | .q8_0 => .error (.exn (.runtimeError "Tensor::full: unsupported dtype"))

def ones (n : Nat) (dtype : DType) : Except StorageError Storage := full alloc n dtype

end Operations

structure HostData (t : ScalarType) where
  length : Nat
  fits : length * dtypeSize (.scalar t) ≤ vectorMax

section Operations

variable (alloc : Nat → Bool)

def fromList {t : ScalarType} (data : HostData t) : Except StorageError Storage := do
  let s ← ensureCapacity alloc ⟨.scalar t, 0, 0, 0⟩ data.length
  .ok { s with size := data.length }

def fromData {t : ScalarType} (data : HostData t) : Except StorageError Storage := do
  let s ← construct alloc (.scalar t) data.length
  .ok { s with size := data.length, capacity := data.length }

def append (s : Storage) : Except StorageError Storage := do
  let s ← ensureCapacity alloc s ((s.size + 1) % sizeMax)
  .ok { s with size := (s.size + 1) % sizeMax }

def appendInt64 (s : Storage) : Except StorageError Storage :=
  if s.dtype ≠ .int64 then .error (.exn (.runtimeError "append_int64 on non-int64 tensor"))
  else append alloc s

def appendDouble (s : Storage) : Except StorageError Storage :=
  if s.dtype ≠ .float64 then .error (.exn (.runtimeError "append_double on non-double tensor"))
  else append alloc s

def reserve (s : Storage) (cap : Nat) : Except StorageError Storage := ensureCapacity alloc s cap

def resize (s : Storage) (n : Nat) : Except StorageError Storage := do
  let s ← ensureCapacity alloc s n
  .ok { s with size := n }

def clear (s : Storage) : Storage := { s with size := 0 }

def clone (s : Storage) : Except StorageError Storage := do
  let t ← construct alloc s.dtype s.capacity
  .ok { t with size := s.size }

def toDouble (s : Storage) : Except StorageError Storage :=
  if s.dtype = .float64 then clone alloc s
  else do
    let result ← construct alloc .float64 s.size
    match s.dtype with
    | .scalar _ => resize alloc result s.size
    | .q8_0 => .error (.exn (.runtimeError "Tensor::to_double: unsupported dtype"))

def quantizeQ8_0 (s : Storage) : Except StorageError Storage :=
  if s.dtype.isFloat then do
    let result ← construct alloc .q8_0 s.size
    .ok { result with size := s.size, capacity := s.size }
  else .error (.exn (.runtimeError "quantize_q8_0: input must be a float tensor"))

def dequantize (s : Storage) : Except StorageError Storage :=
  if s.dtype = .q8_0 then do
    let result ← construct alloc .float64 s.size
    resize alloc result s.size
  else .error (.exn (.runtimeError "dequantize: input must be a kQ8_0 tensor"))

end Operations

-- A defaulted move empties the vector and copies the three other fields.
def movedFrom (s : Storage) : Storage := { s with bytes := 0 }

inductive Call where
  | default
  | construct (dtype : DType) (capacity : Nat)
  | listInt64 (il : HostData .int64)
  | listDouble (il : HostData .float64)
  | zeros (n : Nat) (dtype : DType)
  | ones (n : Nat) (dtype : DType)
  | full (n : Nat) (dtype : DType)
  | fromData (t : ScalarType) (data : HostData t)
  | appendInt64 (i : Nat)
  | appendDouble (i : Nat)
  | reserve (i cap : Nat)
  | resize (i n : Nat)
  | clear (i : Nat)
  | clone (i : Nat)
  | toDouble (i : Nat)
  | quantizeQ8_0 (i : Nat)
  | dequantize (i : Nat)
  | moveConstruct (i : Nat)
  | moveAssign (i j : Nat)

abbrev Objects : Type := List Storage

def Objects.create (w : Objects) (r : Except StorageError Storage) : Objects :=
  match r with
  | .ok s => w ++ [s]
  | .error _ => w

-- A failed call on an object leaves it as it was.
def Objects.update (w : Objects) (i : Nat) (f : Storage → Except StorageError Storage) : Objects :=
  match w[i]? with
  | none => w
  | some s =>
    match f s with
    | .ok s' => w.set i s'
    | .error _ => w

def Objects.createFrom (w : Objects) (i : Nat) (f : Storage → Except StorageError Storage) :
    Objects :=
  match w[i]? with
  | none => w
  | some s => w.create (f s)

def Objects.moveConstruct (w : Objects) (i : Nat) : Objects :=
  match w[i]? with
  | none => w
  | some s => w.set i s.movedFrom ++ [s]

-- A tensor moved onto itself is left with an empty buffer.
def Objects.moveAssign (w : Objects) (i j : Nat) : Objects :=
  match w[i]?, w[j]? with
  | some _, some s => (w.set i s).set j s.movedFrom
  | _, _ => w

def Call.apply (alloc : Nat → Bool) (w : Objects) : Call → Objects
  | default => w.create (.ok .default)
  | construct dtype capacity => w.create (Storage.construct alloc dtype capacity)
  | listInt64 il => w.create (Storage.fromList alloc il)
  | listDouble il => w.create (Storage.fromList alloc il)
  | zeros n dtype => w.create (Storage.zeros alloc n dtype)
  | ones n dtype => w.create (Storage.ones alloc n dtype)
  | full n dtype => w.create (Storage.full alloc n dtype)
  | fromData _ data => w.create (Storage.fromData alloc data)
  | appendInt64 i => w.update i (Storage.appendInt64 alloc)
  | appendDouble i => w.update i (Storage.appendDouble alloc)
  | reserve i cap => w.update i fun s => Storage.reserve alloc s cap
  | resize i n => w.update i fun s => Storage.resize alloc s n
  | clear i => w.update i fun s => .ok s.clear
  | clone i => w.createFrom i (Storage.clone alloc)
  | toDouble i => w.createFrom i (Storage.toDouble alloc)
  | quantizeQ8_0 i => w.createFrom i (Storage.quantizeQ8_0 alloc)
  | dequantize i => w.createFrom i (Storage.dequantize alloc)
  | moveConstruct i => w.moveConstruct i
  | moveAssign i j => w.moveAssign i j

structure Step where
  call : Call
  alloc : Nat → Bool

def run (steps : List Step) : Objects := steps.foldl (fun w c => c.call.apply c.alloc w) []

structure Covers (s : Storage) : Prop where
  size_le : s.size ≤ s.capacity
  bytes_le : dtypeBytes s.capacity s.dtype ≤ s.bytes
  access : ∀ i < s.size, elemEnd i s.dtype ≤ s.bytes

section Bytes

variable {n m : Nat} {dtype : DType}

theorem exactBytes_mono (h : n ≤ m) : exactBytes n dtype ≤ exactBytes m dtype := by
  cases dtype with
  | scalar t => exact Nat.mul_le_mul_right _ h
  | q8_0 =>
    simp only [exactBytes, Tensor.numBlocks, Tensor.q8BlockSize]
    omega

theorem le_exactBytes (n : Nat) (dtype : DType) : n ≤ exactBytes n dtype := by
  cases dtype with
  | scalar t =>
    cases t <;> simp only [exactBytes, dtypeSize] <;> omega
  | q8_0 =>
    simp only [exactBytes, Tensor.numBlocks, Tensor.q8BlockSize]
    omega

theorem exactBytes_double (n : Nat) (dtype : DType) :
    exactBytes (n * 2) dtype ≤ exactBytes n dtype * 2 := by
  cases dtype with
  | scalar t =>
    cases t <;> simp only [exactBytes, dtypeSize] <;> omega
  | q8_0 =>
    simp only [exactBytes, Tensor.numBlocks, Tensor.q8BlockSize]
    omega

theorem elemEnd_le (h : n < m) : elemEnd n dtype ≤ exactBytes m dtype := by
  cases dtype with
  | scalar t => exact Nat.mul_le_mul_right _ h
  | q8_0 =>
    simp only [elemEnd, exactBytes, Tensor.numBlocks, Tensor.q8BlockSize]
    omega

theorem dtypeBytes_eq (h : exactBytes n dtype < sizeMax) :
    dtypeBytes n dtype = exactBytes n dtype := by
  cases dtype with
  | scalar t => exact Nat.mod_eq_of_lt h
  | q8_0 =>
    simp only [dtypeBytes, exactBytes, Tensor.numBlocks, Tensor.q8BlockSize, sizeMax] at h ⊢
    have hcount : n + 32 - 1 < 2 ^ 64 := by omega
    rw [Nat.mod_eq_of_lt hcount, Nat.mod_eq_of_lt h]

end Bytes

structure Backed (s : Storage) : Prop where
  size_le : s.size ≤ s.capacity
  backed : exactBytes s.capacity s.dtype ≤ s.bytes
  bytes_le : s.bytes ≤ vectorMax

def Exact (alloc : Nat → Bool) (n : Nat) (dtype : DType) : Prop :=
  dtypeBytes n dtype ≤ vectorMax → alloc (dtypeBytes n dtype) → exactBytes n dtype < sizeMax

section Growth

variable {alloc : Nat → Bool} {s r : Storage} {n : Nat} {dtype : DType}

theorem Backed.exact_lt (h : s.Backed) : exactBytes s.capacity s.dtype < sizeMax :=
  (h.backed.trans h.bytes_le).trans_lt (by decide)

theorem Backed.covers (h : s.Backed) : s.Covers where
  size_le := h.size_le
  bytes_le := (dtypeBytes_eq h.exact_lt).trans_le h.backed
  access _ hi := (elemEnd_le (hi.trans_le h.size_le)).trans h.backed

theorem Backed.capacity_le (h : s.Backed) : s.capacity ≤ vectorMax :=
  (le_exactBytes s.capacity s.dtype).trans (h.backed.trans h.bytes_le)

theorem Backed.withSize (h : s.Backed) (hn : n ≤ s.capacity) : Backed { s with size := n } :=
  ⟨hn, h.backed, h.bytes_le⟩

theorem backed_nothing (dtype : DType) : Backed ⟨dtype, 0, 0, 0⟩ := by
  refine ⟨le_rfl, ?_, Nat.zero_le _⟩
  cases dtype with
  | scalar t => exact (Nat.zero_mul _).le
  | q8_0 => decide

theorem exact_of_lt (h : exactBytes n dtype < sizeMax) : Exact alloc n dtype := fun _ _ => h

theorem allocate_ok {b bytes : Nat} (h : allocate alloc b = .ok bytes) :
    bytes = b ∧ b ≤ vectorMax ∧ alloc b := by
  unfold allocate at h
  split_ifs at h with hb
  exact ⟨(Except.ok.inj h).symm, hb⟩

theorem ensureCapacity_backed (hs : s.Backed) (hn : s.capacity < n → Exact alloc n s.dtype)
    (h : ensureCapacity alloc s n = .ok r) :
    r.Backed ∧ r.dtype = s.dtype ∧ r.size = s.size ∧ n ≤ r.capacity := by
  unfold ensureCapacity at h
  split_ifs at h with hcap
  · obtain rfl := Except.ok.inj h
    exact ⟨hs, rfl, rfl, hcap⟩
  · obtain ⟨bytes, halloc, rfl⟩ := except_map_eq_ok.mp h
    obtain ⟨rfl, hmax, hgrant⟩ := allocate_ok halloc
    have hdouble : s.capacity * 2 < sizeMax := by
      have := hs.capacity_le
      simp only [vectorMax, sizeMax] at this ⊢
      omega
    rw [Nat.mod_eq_of_lt hdouble] at hmax hgrant ⊢
    have hexact : exactBytes (max n (s.capacity * 2)) s.dtype < sizeMax := by
      rcases le_total (s.capacity * 2) n with hle | hle
      · rw [max_eq_left hle] at hmax hgrant ⊢
        exact hn (not_le.mp hcap) hmax hgrant
      · rw [max_eq_right hle]
        have hbytes : exactBytes s.capacity s.dtype ≤ vectorMax := hs.backed.trans hs.bytes_le
        have hgrow := exactBytes_double s.capacity s.dtype
        simp only [vectorMax, sizeMax] at hbytes ⊢
        omega
    refine ⟨⟨?_, ?_, hmax⟩, rfl, rfl, le_max_left n _⟩
    · exact hs.size_le.trans ((not_le.mp hcap).le.trans (le_max_left n _))
    · exact (dtypeBytes_eq hexact).symm.le

theorem construct_backed (hn : Exact alloc n dtype) (h : construct alloc dtype n = .ok r) :
    r.Backed ∧ r.dtype = dtype ∧ r.size = 0 ∧ n ≤ r.capacity := by
  unfold construct at h
  split_ifs at h with hpos
  · exact ensureCapacity_backed (backed_nothing dtype) (fun _ => hn) h
  · obtain rfl := Except.ok.inj h
    exact ⟨backed_nothing dtype, rfl, rfl, not_lt.mp hpos⟩

theorem Backed.shrink (h : s.Backed) (hn : n ≤ s.capacity) :
    Backed { s with size := n, capacity := n } :=
  ⟨le_rfl, (exactBytes_mono hn).trans h.backed, h.bytes_le⟩

theorem HostData.exact {t : ScalarType} (data : HostData t) : Exact alloc data.length (.scalar t) :=
  exact_of_lt (data.fits.trans_lt (by decide))

theorem zeros_backed (hn : Exact alloc n dtype) (h : zeros alloc n dtype = .ok r) : r.Backed := by
  obtain ⟨t, ht, h⟩ := except_bind_eq_ok.mp h
  obtain ⟨bytes, halloc, rfl⟩ := except_map_eq_ok.mp h
  obtain ⟨rfl, hmax, hgrant⟩ := allocate_ok halloc
  obtain ⟨-, hdtype, -⟩ := construct_backed hn ht
  refine ⟨le_rfl, ?_, hmax⟩
  rw [hdtype]
  exact (dtypeBytes_eq (hn hmax hgrant)).symm.le

theorem full_backed (hn : Exact alloc n dtype) (h : full alloc n dtype = .ok r) : r.Backed := by
  obtain ⟨t, ht, h⟩ := except_bind_eq_ok.mp h
  obtain ⟨hback, -, -, hcap⟩ := construct_backed hn ht
  cases dtype with
  | scalar u =>
    obtain rfl := Except.ok.inj h
    exact hback.shrink hcap
  | q8_0 => cases h

theorem fromList_backed {t : ScalarType} (data : HostData t) (h : fromList alloc data = .ok r) :
    r.Backed := by
  obtain ⟨s, hs, rfl⟩ := except_map_eq_ok.mp h
  obtain ⟨hback, -, -, hcap⟩ := ensureCapacity_backed (backed_nothing _) (fun _ => data.exact) hs
  exact hback.withSize hcap

theorem fromData_backed {t : ScalarType} (data : HostData t) (h : fromData alloc data = .ok r) :
    r.Backed := by
  obtain ⟨s, hs, rfl⟩ := except_map_eq_ok.mp h
  obtain ⟨hback, -, -, hcap⟩ := construct_backed data.exact hs
  exact hback.shrink hcap

theorem resize_backed (hs : s.Backed) (hn : s.capacity < n → Exact alloc n s.dtype)
    (h : resize alloc s n = .ok r) : r.Backed := by
  obtain ⟨t, ht, rfl⟩ := except_map_eq_ok.mp h
  obtain ⟨hback, -, -, hcap⟩ := ensureCapacity_backed hs hn ht
  exact hback.withSize hcap

theorem append_backed {t : ScalarType} (hs : s.Backed) (hdtype : s.dtype = .scalar t)
    (h : append alloc s = .ok r) : r.Backed := by
  have hsize : s.size + 1 < sizeMax := by
    have := hs.size_le.trans hs.capacity_le
    simp only [vectorMax, sizeMax] at this ⊢
    omega
  unfold append at h
  rw [Nat.mod_eq_of_lt hsize] at h
  obtain ⟨u, hu, rfl⟩ := except_map_eq_ok.mp h
  have hexact : s.capacity < s.size + 1 → Exact alloc (s.size + 1) s.dtype := by
    intro hfull
    have hcap : s.capacity = s.size := le_antisymm (Nat.lt_succ_iff.mp hfull) hs.size_le
    have hbytes : exactBytes s.capacity s.dtype ≤ vectorMax := hs.backed.trans hs.bytes_le
    refine exact_of_lt ?_
    rw [hcap, hdtype] at hbytes
    rw [hdtype]
    simp only [exactBytes, vectorMax, sizeMax] at hbytes ⊢
    cases t <;> simp only [dtypeSize] at hbytes ⊢ <;> omega
  obtain ⟨hback, -, hkept, hcap⟩ := ensureCapacity_backed hs hexact hu
  rw [hkept, Nat.mod_eq_of_lt hsize]
  exact hback.withSize hcap

theorem clone_backed (hs : s.Backed) (h : clone alloc s = .ok r) : r.Backed := by
  obtain ⟨t, ht, rfl⟩ := except_map_eq_ok.mp h
  obtain ⟨hback, -, -, hcap⟩ := construct_backed (exact_of_lt hs.exact_lt) ht
  exact hback.withSize (hs.size_le.trans hcap)

theorem sized_backed (hn : Exact alloc n dtype) {t : Storage} (ht : construct alloc dtype n = .ok t)
    (h : resize alloc t n = .ok r) : r.Backed := by
  obtain ⟨hback, -, -, hcap⟩ := construct_backed hn ht
  exact resize_backed hback (fun hlt => absurd hcap (not_le.mpr hlt)) h

theorem toDouble_backed (hs : s.Backed) (h : toDouble alloc s = .ok r) : r.Backed := by
  unfold toDouble at h
  split_ifs at h with hdouble
  · exact clone_backed hs h
  obtain ⟨t, ht, h⟩ := except_bind_eq_ok.mp h
  cases hdtype : s.dtype with
  | q8_0 =>
    rw [hdtype] at h
    cases h
  | scalar u =>
    rw [hdtype] at h
    refine sized_backed (exact_of_lt ?_) ht h
    have hbytes : exactBytes s.size s.dtype ≤ vectorMax :=
      (exactBytes_mono hs.size_le).trans (hs.backed.trans hs.bytes_le)
    rw [hdtype] at hbytes
    simp only [exactBytes, DType.float64, vectorMax, sizeMax] at hbytes ⊢
    cases u <;> simp only [dtypeSize] at hbytes ⊢ <;> omega

theorem quantizeQ8_0_backed (hs : s.Backed) (h : quantizeQ8_0 alloc s = .ok r) : r.Backed := by
  unfold quantizeQ8_0 at h
  split_ifs at h with hfloat
  obtain ⟨t, ht, rfl⟩ := except_map_eq_ok.mp h
  have hexact : exactBytes s.size .q8_0 < sizeMax := by
    have := hs.size_le.trans hs.capacity_le
    simp only [exactBytes, Tensor.numBlocks, Tensor.q8BlockSize, vectorMax, sizeMax] at this ⊢
    omega
  obtain ⟨hback, -, -, hcap⟩ := construct_backed (exact_of_lt hexact) ht
  exact hback.shrink hcap

theorem dequantize_backed (hn : s.dtype = .q8_0 → Exact alloc s.size .float64)
    (h : dequantize alloc s = .ok r) : r.Backed := by
  unfold dequantize at h
  split_ifs at h with hq
  obtain ⟨t, ht, h⟩ := except_bind_eq_ok.mp h
  exact sized_backed (hn hq) ht h

theorem Backed.movedFrom_covers_iff (h : s.Backed) : s.movedFrom.Covers ↔ s.capacity = 0 := by
  constructor
  · intro hc
    have hzero : exactBytes s.capacity s.dtype ≤ 0 :=
      (dtypeBytes_eq h.exact_lt).symm.trans_le hc.bytes_le
    exact Nat.le_zero.mp ((le_exactBytes s.capacity s.dtype).trans hzero)
  · intro hcap
    have hsize : s.size = 0 := Nat.le_zero.mp (hcap ▸ h.size_le)
    refine ⟨h.size_le, ?_, fun i hi => ?_⟩
    · exact (dtypeBytes_eq h.exact_lt).trans_le (hcap ▸ (backed_nothing s.dtype).backed)
    · exact absurd (hsize ▸ hi : i < 0) (Nat.not_lt_zero i)

theorem Backed.movedFrom (h : s.Backed) (hcap : s.capacity = 0) : s.movedFrom.Backed :=
  ⟨h.size_le, (congrArg (exactBytes · s.dtype) hcap).trans_le (backed_nothing s.dtype).backed,
    Nat.zero_le _⟩

end Growth

def Step.Sound (w : Objects) (c : Step) : Prop :=
  match c.call with
  | .construct dtype capacity => Exact c.alloc capacity dtype
  | .zeros n dtype => Exact c.alloc n dtype
  | .ones n dtype => Exact c.alloc n dtype
  | .full n dtype => Exact c.alloc n dtype
  | .reserve i n => ∀ s, w[i]? = some s → s.capacity < n → Exact c.alloc n s.dtype
  | .resize i n => ∀ s, w[i]? = some s → s.capacity < n → Exact c.alloc n s.dtype
  | .dequantize i => ∀ s, w[i]? = some s → s.dtype = .q8_0 → Exact c.alloc s.size .float64
  | .moveConstruct i => ∀ s, w[i]? = some s → s.capacity = 0
  | .moveAssign _ j => ∀ s, w[j]? = some s → s.capacity = 0
  | _ => True

section Runs

variable {w : Objects}

def Objects.Backed (w : Objects) : Prop := ∀ s ∈ w, s.Backed

theorem Objects.Backed.set (hw : w.Backed) {s : Storage} (hs : s.Backed) (i : Nat) :
    Objects.Backed (w.set i s) := by
  intro t ht
  rcases List.mem_or_eq_of_mem_set ht with hold | rfl
  · exact hw t hold
  · exact hs

theorem Objects.Backed.create (hw : w.Backed) {r : Except StorageError Storage}
    (hr : ∀ s, r = .ok s → s.Backed) : (w.create r).Backed := by
  cases r with
  | error e => exact hw
  | ok s =>
    intro t ht
    rcases List.mem_append.mp ht with hold | hnew
    · exact hw t hold
    · rw [List.mem_singleton.mp hnew]
      exact hr s rfl

theorem Objects.Backed.createFrom (hw : w.Backed) {i : Nat}
    {f : Storage → Except StorageError Storage}
    (hf : ∀ s, w[i]? = some s → s.Backed → ∀ r, f s = .ok r → r.Backed) :
    (w.createFrom i f).Backed := by
  unfold Objects.createFrom
  cases hi : w[i]? with
  | none => exact hw
  | some s => exact hw.create (hf s hi (hw s (List.mem_of_getElem? hi)))

theorem Objects.Backed.update (hw : w.Backed) {i : Nat} {f : Storage → Except StorageError Storage}
    (hf : ∀ s, w[i]? = some s → s.Backed → ∀ r, f s = .ok r → r.Backed) :
    (w.update i f).Backed := by
  unfold Objects.update
  cases hi : w[i]? with
  | none => exact hw
  | some s =>
    cases hs : f s with
    | error e => simpa only [hs] using hw
    | ok r =>
      simp only [hs]
      exact hw.set (hf s hi (hw s (List.mem_of_getElem? hi)) r hs) i

theorem Objects.Backed.moveConstruct (hw : w.Backed) {i : Nat}
    (h : ∀ s, w[i]? = some s → s.capacity = 0) : (w.moveConstruct i).Backed := by
  unfold Objects.moveConstruct
  cases hi : w[i]? with
  | none => exact hw
  | some s =>
    have hs : s.Backed := hw s (List.mem_of_getElem? hi)
    exact Objects.Backed.create (r := .ok s) (hw.set (hs.movedFrom (h s hi)) i)
      fun t ht => Except.ok.inj ht ▸ hs

theorem Objects.Backed.moveAssign (hw : w.Backed) {i j : Nat}
    (h : ∀ s, w[j]? = some s → s.capacity = 0) : (w.moveAssign i j).Backed := by
  unfold Objects.moveAssign
  split
  · next s _ hj =>
    have hs : s.Backed := hw s (List.mem_of_getElem? hj)
    exact (hw.set hs i).set (hs.movedFrom (h s hj)) j
  · exact hw

theorem Step.backed {c : Step} (hw : w.Backed) (hc : c.Sound w) :
    (c.call.apply c.alloc w).Backed := by
  obtain ⟨call, alloc⟩ := c
  cases call with
  | default => exact hw.create fun s hs => Except.ok.inj hs ▸ backed_nothing .float64
  | construct dtype capacity => exact hw.create fun s hs => (construct_backed hc hs).1
  | listInt64 il => exact hw.create fun s hs => fromList_backed il hs
  | listDouble il => exact hw.create fun s hs => fromList_backed il hs
  | zeros n dtype => exact hw.create fun s hs => zeros_backed hc hs
  | ones n dtype => exact hw.create fun s hs => full_backed hc hs
  | full n dtype => exact hw.create fun s hs => full_backed hc hs
  | fromData t data => exact hw.create fun s hs => fromData_backed data hs
  | appendInt64 i =>
    refine hw.update fun s _ hs r hr => ?_
    unfold Storage.appendInt64 at hr
    split_ifs at hr with hdtype
    exact append_backed hs (not_not.mp hdtype) hr
  | appendDouble i =>
    refine hw.update fun s _ hs r hr => ?_
    unfold Storage.appendDouble at hr
    split_ifs at hr with hdtype
    exact append_backed hs (not_not.mp hdtype) hr
  | reserve i cap => exact hw.update fun s hi hs r hr => (ensureCapacity_backed hs (hc s hi) hr).1
  | resize i n => exact hw.update fun s hi hs r hr => resize_backed hs (hc s hi) hr
  | clear i =>
    exact hw.update fun s _ hs r hr => Except.ok.inj hr ▸ hs.withSize (Nat.zero_le _)
  | clone i => exact hw.createFrom fun s _ hs r hr => clone_backed hs hr
  | toDouble i => exact hw.createFrom fun s _ hs r hr => toDouble_backed hs hr
  | quantizeQ8_0 i => exact hw.createFrom fun s _ hs r hr => quantizeQ8_0_backed hs hr
  | dequantize i => exact hw.createFrom fun s hi _ r hr => dequantize_backed (hc s hi) hr
  | moveConstruct i => exact hw.moveConstruct hc
  | moveAssign i j => exact hw.moveAssign hc

end Runs

theorem storage_covers (steps : List Step)
    (h : ∀ before c, before ++ [c] <+: steps → c.Sound (run before)) :
    ∀ before, before <+: steps → ∀ s ∈ run before, s.Covers := by
  have hstep (w : Objects) (c : Step) (hw : w.Backed) (hc : c.Sound w) :
      (c.call.apply c.alloc w).Backed := Step.backed hw hc
  have hrun := foldl_along (P := Objects.Backed) (b := []) (by simp [Objects.Backed]) hstep h
  exact fun before hbefore s hs => (hrun before hbefore s hs).covers

def smallAlloc (bytes : Nat) : Bool := bytes ≤ 1024

theorem storage_covers_quantized :
    let steps : List Step := [⟨.construct .float64 4, smallAlloc⟩, ⟨.resize 0 40, smallAlloc⟩,
      ⟨.quantizeQ8_0 0, smallAlloc⟩]
    run steps = [⟨.float64, 320, 40, 40⟩, ⟨.q8_0, 72, 40, 40⟩] ∧ ∀ s ∈ run steps, s.Covers := by
  intro steps
  refine ⟨by decide +kernel, storage_covers steps ?_ steps List.prefix_rfl⟩
  rintro before c ⟨rest, hsplit⟩
  rcases before with _ | ⟨a, _ | ⟨b, _ | ⟨d, before⟩⟩⟩
  · obtain rfl : c = ⟨.construct .float64 4, smallAlloc⟩ := (List.cons.inj hsplit).1
    exact exact_of_lt (by decide)
  · obtain ⟨rfl, htail⟩ := List.cons.inj hsplit
    obtain rfl : c = ⟨.resize 0 40, smallAlloc⟩ := (List.cons.inj htail).1
    intro s hs _
    obtain rfl : ⟨.float64, 32, 0, 4⟩ = s := Option.some.inj hs
    exact exact_of_lt (by decide)
  · obtain ⟨rfl, htail⟩ := List.cons.inj hsplit
    obtain ⟨rfl, hlast⟩ := List.cons.inj htail
    obtain rfl : c = ⟨.quantizeQ8_0 0, smallAlloc⟩ := (List.cons.inj hlast).1
    trivial
  · simp [steps] at hsplit

def threeInts : HostData .int64 := ⟨3, by decide⟩

theorem storage_not_covered :
    (run [⟨.fromData .int64 threeInts, smallAlloc⟩, ⟨.moveConstruct 0, smallAlloc⟩] =
        [⟨.int64, 0, 3, 3⟩, ⟨.int64, 24, 3, 3⟩] ∧ ¬ Covers ⟨.int64, 0, 3, 3⟩) ∧
      (run [⟨.construct .float64 (2 ^ 61), smallAlloc⟩, ⟨.resize 0 (2 ^ 61), smallAlloc⟩] =
        [⟨.float64, 0, 2 ^ 61, 2 ^ 61⟩] ∧ ¬ Covers ⟨.float64, 0, 2 ^ 61, 2 ^ 61⟩) := by
  refine ⟨⟨by decide +kernel, fun h => ?_⟩, by decide +kernel, fun h => ?_⟩
  · exact absurd (h.access 0 (by decide)) (by decide)
  · exact absurd (h.access 0 (by decide)) (by decide)

end Storage

end Lark.Column

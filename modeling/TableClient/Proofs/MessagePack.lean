import Mathlib
import TableClient.MessagePack

/-!
# MessagePack is self-delimiting

A written value says where it ends: no written value is the beginning of another one. So values
that are written one behind the other can be told apart, whatever stands behind them.

Results:
* `head_append_inj`: the head of a string, array or map gives its size.
* `string_append_inj`: a written string gives the string.
* `array_append_inj`, `map_append_inj`: a written array or map gives its items, if these are
  self-delimiting.
-/

namespace TableClient.MessagePack

/-- Wherever `write a` stands at the beginning of some bytes, no other value does. -/
def Delimits {α : Type} (write : α → Bytes) (a : α) : Prop :=
  ∀ b r s, write a ++ r = write b ++ s → a = b ∧ r = s

/-! ## Sizes -/

@[simp] theorem length_bigEndian (count n : Nat) : (bigEndian count n).length = count := by
  induction count generalizing n with
  | zero => rfl
  | succ count ih => simp [bigEndian, ih]

theorem ofNat_inj_of_lt {a b : Nat} (ha : a < 256) (hb : b < 256)
    (h : UInt8.ofNat a = UInt8.ofNat b) : a = b := by
  have := congrArg UInt8.toNat h
  rwa [UInt8.toNat_ofNat_of_lt' ha, UInt8.toNat_ofNat_of_lt' hb] at this

/-- The bytes of a number give the number up to multiples of `256 ^ count`. -/
theorem bigEndian_inj {count n m : Nat} (h : bigEndian count n = bigEndian count m) :
    n % 256 ^ count = m % 256 ^ count := by
  induction count generalizing n m with
  | zero => simp [Nat.mod_one]
  | succ count ih =>
    simp only [bigEndian] at h
    obtain ⟨hhigh, hlow⟩ := List.append_inj h (by simp)
    have hhigh := ih hhigh
    have hlow := ofNat_inj_of_lt (Nat.mod_lt _ (by omega)) (Nat.mod_lt _ (by omega))
      (List.cons.inj hlow).1
    rw [pow_succ', Nat.mod_mul, Nat.mod_mul, hlow, hhigh]

/-! ## Heads -/

/-- The number in the first byte of a head. -/
def SizedKind.mark (kind : SizedKind) (size : Nat) : Nat :=
  if size < kind.shortBelow then kind.short + size
  else if size < 0x100 then kind.one?.getD kind.two
  else if size < 0x10000 then kind.two
  else kind.four

/-- The number of bytes behind the first one of a head. -/
def SizedKind.width (kind : SizedKind) (size : Nat) : Nat :=
  if size < kind.shortBelow then 0
  else if size < 0x100 then if kind.one?.isSome then 1 else 2
  else if size < 0x10000 then 2
  else 4

theorem shortestHead_eq (kind : SizedKind) (size : Nat) :
    shortestHead kind size =
      UInt8.ofNat (kind.mark size) :: bigEndian (kind.width size) size := by
  obtain ⟨shortBelow, short, one?, two, four⟩ := kind
  unfold shortestHead SizedKind.mark SizedKind.width
  by_cases h0 : size < shortBelow
  · simp [h0, bigEndian]
  · by_cases h1 : size < 0x100
    · have h2 : size < 0x10000 := by omega
      cases one? <;> simp [h0, h1, h2]
    · by_cases h2 : size < 0x10000 <;> cases one? <;> simp [h0, h1, h2]

/-- The first bytes of the heads of a kind of value differ from each other and from `0xC1`. -/
structure SizedKind.Distinct (kind : SizedKind) : Prop where
  short_le : kind.short + kind.shortBelow ≤ 0xC1
  one_lt : ∀ first ∈ kind.one?, 0xC1 < first ∧ first < kind.two
  lt_two : 0xC1 < kind.two
  two_lt : kind.two < kind.four
  four_lt : kind.four < 0x100

theorem distinct_string : SizedKind.string.Distinct := by
  constructor <;> simp [SizedKind.string]

theorem distinct_array : SizedKind.array.Distinct := by
  constructor <;> simp [SizedKind.array]

theorem distinct_map : SizedKind.map.Distinct := by
  constructor <;> simp [SizedKind.map]

/-- The first byte of a head is below `0xC1` or above it. -/
theorem mark_lt_or_lt {kind : SizedKind} (hkind : kind.Distinct) (size : Nat) :
    kind.mark size < 0xC1 ∨ 0xC1 < kind.mark size ∧ kind.mark size < 0x100 := by
  have := hkind.short_le
  have := hkind.lt_two
  have := hkind.two_lt
  have := hkind.four_lt
  unfold SizedKind.mark
  split_ifs with h0 h1
  · omega
  · cases h : kind.one? with
    | none => simp only [Option.getD_none]; omega
    | some first => have := hkind.one_lt first h; simp only [Option.getD_some]; omega
  · omega
  · omega

theorem mark_lt {kind : SizedKind} (hkind : kind.Distinct) (size : Nat) :
    kind.mark size < 256 := by
  have := mark_lt_or_lt hkind size
  omega

theorem mark_ne {kind : SizedKind} (hkind : kind.Distinct) (size : Nat) :
    kind.mark size ≠ 0xC1 := by
  have := mark_lt_or_lt hkind size
  omega

/-- The first byte of a head says how many bytes follow, and gives the size where none do. -/
theorem width_of_mark {kind : SizedKind} (hkind : kind.Distinct) {a b : Nat}
    (h : kind.mark a = kind.mark b) :
    kind.width a = kind.width b ∧ (kind.width a = 0 → a = b) := by
  have h1 := hkind.short_le
  have h2 := hkind.one_lt
  have h3 := hkind.lt_two
  have h4 := hkind.two_lt
  unfold SizedKind.mark at h
  unfold SizedKind.width
  cases hone : kind.one? with
  | none =>
    simp only [hone, Option.getD_none, Option.isSome_none] at h ⊢
    split_ifs at h ⊢ <;> first | omega | simp_all
  | some first =>
    have := h2 first hone
    simp only [hone, Option.getD_some, Option.isSome_some] at h ⊢
    split_ifs at h ⊢ <;> first | omega | simp_all

theorem lt_of_width {kind : SizedKind} {size : Nat} (hsize : size < 0x100000000)
    (h : kind.width size ≠ 0) : size < 256 ^ kind.width size := by
  unfold SizedKind.width at h ⊢
  split_ifs at h ⊢ <;> omega

theorem shortestHead_append_inj {kind : SizedKind} (hkind : kind.Distinct) {a b : Nat}
    (ha : a < 0x100000000) (hb : b < 0x100000000) {r s : Bytes}
    (h : shortestHead kind a ++ r = shortestHead kind b ++ s) : a = b ∧ r = s := by
  rw [shortestHead_eq, shortestHead_eq, List.cons_append, List.cons_append] at h
  obtain ⟨hmark, h⟩ := List.cons.inj h
  obtain ⟨hwidth, hshort⟩ :=
    width_of_mark hkind (ofNat_inj_of_lt (mark_lt hkind a) (mark_lt hkind b) hmark)
  rw [← hwidth] at h
  obtain ⟨hbytes, hrest⟩ := List.append_inj h (by simp)
  refine ⟨?_, hrest⟩
  by_cases hzero : kind.width a = 0
  · exact hshort hzero
  · have hmod := bigEndian_inj hbytes
    rwa [Nat.mod_eq_of_lt (lt_of_width ha hzero), hwidth,
      Nat.mod_eq_of_lt (lt_of_width hb (hwidth ▸ hzero))] at hmod

/-- Of two runs of a byte, each followed by something else, neither begins the other. -/
theorem replicate_append_inj {x : UInt8} {xs ys : Bytes} (hxs : xs.head? ≠ some x)
    (hys : ys.head? ≠ some x) {n m : Nat}
    (h : List.replicate n x ++ xs = List.replicate m x ++ ys) : n = m ∧ xs = ys := by
  induction n generalizing m with
  | zero =>
    cases m with
    | zero => exact ⟨rfl, h⟩
    | succ m =>
      have : xs = x :: (List.replicate m x ++ ys) := by simpa [List.replicate_succ] using h
      simp [this] at hxs
  | succ n ih =>
    cases m with
    | zero =>
      have : ys = x :: (List.replicate n x ++ xs) := by
        simpa [List.replicate_succ] using h.symm
      simp [this] at hys
    | succ m =>
      simp only [List.replicate_succ, List.cons_append, List.cons.injEq, true_and] at h
      obtain ⟨hnm, hrest⟩ := ih h
      exact ⟨by omega, hrest⟩

theorem head?_shortestHead_append {kind : SizedKind} (hkind : kind.Distinct) (size : Nat)
    (r : Bytes) : (shortestHead kind size ++ r).head? ≠ some 0xC1 := by
  rw [shortestHead_eq, List.cons_append, List.head?_cons]
  intro h
  exact mark_ne hkind size
    (ofNat_inj_of_lt (mark_lt hkind size) (by decide) (Option.some.inj h))

/-- The head of a value gives its size. -/
theorem head_append_inj {kind : SizedKind} (hkind : kind.Distinct) {a b : Nat} {r s : Bytes}
    (h : head kind a ++ r = head kind b ++ s) : a = b ∧ r = s := by
  simp only [head, List.append_assoc] at h
  obtain ⟨hdiv, h⟩ := replicate_append_inj (head?_shortestHead_append hkind _ r)
    (head?_shortestHead_append hkind _ s) h
  obtain ⟨hmod, hrest⟩ := shortestHead_append_inj hkind (Nat.mod_lt _ (by decide))
    (Nat.mod_lt _ (by decide)) h
  exact ⟨by omega, hrest⟩

/-! ## Values -/

theorem byte_delimits (a : UInt8) : Delimits byte a := by
  intro b r s h
  unfold byte at h
  split_ifs at h with ha hb hb
  · simpa using h
  · have : a = 0xCC := (List.cons.inj h).1
    subst this
    exact absurd ha (by decide)
  · have : 0xCC = b := (List.cons.inj h).1
    subst this
    exact absurd hb (by decide)
  · simpa using h

theorem bool_delimits (a : Bool) : Delimits bool a := by
  intro b r s h
  obtain ⟨hab, hrest⟩ := List.append_inj h rfl
  exact ⟨bool_inj hab, hrest⟩

/-- A written string gives the string. -/
theorem string_append_inj (a : String) : Delimits string a := by
  intro b r s h
  simp only [string, List.append_assoc] at h
  obtain ⟨hlength, h⟩ := head_append_inj distinct_string h
  obtain ⟨hbytes, hrest⟩ := List.append_inj h hlength
  refine ⟨?_, hrest⟩
  have hdata : a.toByteArray.data = b.toByteArray.data := Array.toList_inj.mp hbytes
  exact String.toByteArray_inj.mp (ByteArray.ext hdata)

/-- Items that are written one behind the other are told apart if there are equally many. -/
theorem flatten_map_append_inj {α : Type} {write : α → Bytes} {as bs : List α}
    (hwrite : ∀ a ∈ as, Delimits write a) (hlength : as.length = bs.length) {r s : Bytes}
    (h : (as.map write).flatten ++ r = (bs.map write).flatten ++ s) : as = bs ∧ r = s := by
  induction as generalizing bs with
  | nil =>
    have : bs = [] := List.length_eq_zero_iff.mp hlength.symm
    subst this
    exact ⟨rfl, h⟩
  | cons a as ih =>
    cases bs with
    | nil => simp at hlength
    | cons b bs =>
      simp only [List.map_cons, List.flatten_cons, List.append_assoc] at h
      obtain ⟨rfl, htail⟩ := hwrite a (by simp) b _ _ h
      obtain ⟨rfl, hrest⟩ :=
        ih (fun a ha => hwrite a (by simp [ha])) (by simpa using hlength) htail
      exact ⟨rfl, hrest⟩

/-- A written array gives its items. -/
theorem array_append_inj {α : Type} {write : α → Bytes} {as : List α}
    (hwrite : ∀ a ∈ as, Delimits write a) : Delimits (fun as => array (as.map write)) as := by
  intro bs r s h
  simp only [array, List.append_assoc, List.length_map] at h
  obtain ⟨hlength, h⟩ := head_append_inj distinct_array h
  exact flatten_map_append_inj hwrite hlength h

/-- A written map gives its entries. -/
theorem map_append_inj {α β : Type} {key : α → Bytes} {value : β → Bytes} {as : List (α × β)}
    (hkey : ∀ a ∈ as, Delimits key a.1) (hvalue : ∀ a ∈ as, Delimits value a.2) :
    Delimits (fun as : List (α × β) => map (as.map fun a => (key a.1, value a.2))) as := by
  intro bs r s h
  simp only [map, List.append_assoc, List.length_map, List.flatMap_map] at h
  obtain ⟨hlength, h⟩ := head_append_inj distinct_map h
  have hentry : ∀ a ∈ as, Delimits (fun a : α × β => key a.1 ++ value a.2) a := by
    rintro ⟨a, x⟩ ha ⟨b, y⟩ r s h
    simp only [List.append_assoc] at h
    obtain ⟨rfl, htail⟩ := hkey _ ha b _ _ h
    obtain ⟨rfl, hrest⟩ := hvalue _ ha y _ _ htail
    exact ⟨rfl, hrest⟩
  exact flatten_map_append_inj hentry hlength h

end TableClient.MessagePack

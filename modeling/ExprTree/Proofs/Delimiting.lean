import Mathlib.Algebra.Group.Nat.Defs
import ExprTree.Fingerprint.Encoding

/-!
# Encodings that tell where they end

The bytes of a tree have no separators: a reader finds the end of each piece from the piece itself.
`Delimits f P` says so of an encoder `f`, for the values that satisfy `P`: two outputs, each with
anything after it, are equal only if they encode the same value and are followed by the same bytes.

Numbers take a fixed count of bytes, so lengths and indices are told apart below the limit of that
count; everything else starts with a tag or with its length. The sizes of strings and lists are
collected per type, member and method, and `Fit` bounds them all.
-/

namespace ExprTree

/-- All sizes are below the limit of the format; the largest number of four bytes is left out, since
the list of members counts from one. -/
def Fit (sizes : List Nat) : Prop := ∀ n ∈ sizes, n < 2 ^ 32 - 1

instance : DecidablePred Fit := fun sizes =>
  inferInstanceAs (Decidable (∀ n ∈ sizes, n < 2 ^ 32 - 1))

section Fit

variable {n : Nat} {ns ms : List Nat}

theorem fit_cons : Fit (n :: ns) ↔ n < 2 ^ 32 - 1 ∧ Fit ns := List.forall_mem_cons

theorem fit_append : Fit (ns ++ ms) ↔ Fit ns ∧ Fit ms := List.forall_mem_append

theorem Fit.of_mem {α : Type} {f : α → List Nat} {xs : List α} (h : Fit (xs.flatMap f)) {x : α}
    (hx : x ∈ xs) : Fit (f x) :=
  fun n hn => h n (List.mem_flatMap.2 ⟨x, hx, hn⟩)

end Fit

mutual

/-- The sizes of the strings and lists in a type. -/
def Ty.sizes : Ty → List Nat
  | .unit | .bool | .int | .float | .str | .object => []
  | .named name => [name.utf8ByteSize]
  | .array t | .expr t => t.sizes
  | .func params ret => params.length :: (Ty.sizesOfAll params ++ ret.sizes)

/-- The sizes of the strings and lists in some types. -/
def Ty.sizesOfAll : List Ty → List Nat
  | [] => []
  | t :: ts => t.sizes ++ Ty.sizesOfAll ts

end

/-- The sizes of the strings and lists in a member. -/
def Member.sizes (m : Member) : List Nat :=
  m.owner.name.utf8ByteSize :: m.name.utf8ByteSize :: m.ty.sizes

/-- The sizes of the strings and lists in a method. -/
def Method.sizes (m : Method) : List Nat :=
  m.owner.utf8ByteSize :: m.name.utf8ByteSize :: m.ret.sizes

/-- The method without its marker. -/
def Method.plain (m : Method) : Method := { m with marker := none }

namespace Encoding

/-- The bytes that `f` writes for what satisfies `P` tell what they stand for and where they end. -/
def Delimits {α : Type} (f : α → Bytes) (P : α → Prop) : Prop :=
  ∀ ⦃a b : α⦄, P a → P b → ∀ ⦃r r' : Bytes⦄, f a ++ r = f b ++ r' → a = b ∧ r = r'

/-! ## Numbers and strings -/

theorem length_number (count n : Nat) : (number count n).length = count := by
  induction count generalizing n with
  | zero => rfl
  | succ count ih => rw [number, List.length_cons, ih]

theorem mod_eq_of_number_eq {count n m : Nat} (h : number count n = number count m) :
    n % 256 ^ count = m % 256 ^ count := by
  induction count generalizing n m with
  | zero => rw [Nat.pow_zero, Nat.mod_one, Nat.mod_one]
  | succ count ih =>
    obtain ⟨hbyte, hrest⟩ := List.cons.inj h
    have hlow : n % 256 = m % 256 := by
      have := congrArg UInt8.toNat hbyte
      simpa only [UInt8.toNat_ofNat'] using this
    rw [Nat.pow_succ', Nat.mod_mul, Nat.mod_mul, hlow, ih hrest]

theorem delimits_number (count : Nat) : Delimits (number count) (· < 256 ^ count) := by
  intro n m hn hm r r' h
  obtain ⟨hbytes, hrest⟩ := List.append_inj h (by rw [length_number, length_number])
  have hmod := mod_eq_of_number_eq hbytes
  rw [Nat.mod_eq_of_lt hn, Nat.mod_eq_of_lt hm] at hmod
  exact ⟨hmod, hrest⟩

theorem delimits_count : Delimits count (· < 2 ^ 32) := delimits_number 4

theorem delimits_length : Delimits count (· < 2 ^ 32 - 1) :=
  fun _ _ h h' => delimits_count (Nat.lt_of_lt_pred h) (Nat.lt_of_lt_pred h')

theorem toList_loop (bytes : ByteArray) (i : Nat) (acc : List UInt8) :
    ByteArray.toList.loop bytes i acc = acc.reverse ++ bytes.data.toList.drop i := by
  rw [ByteArray.toList.loop]
  split
  next h =>
    have hget : bytes.get! i = bytes.data.toList[i] := by
      show bytes.data[i]! = _
      rw [getElem!_pos bytes.data i h, Array.getElem_toList]
    rw [toList_loop, List.drop_eq_getElem_cons h, hget]
    simp
  next h =>
    have hdrop : bytes.data.toList.drop i = [] := List.drop_eq_nil_of_le (Nat.not_lt.1 h)
    rw [hdrop, List.append_nil]
termination_by bytes.size - i

theorem toList_toUTF8 (s : String) : s.toUTF8.toList = s.toByteArray.data.toList := toList_loop _ 0 []

theorem delimits_string : Delimits string (·.utf8ByteSize < 2 ^ 32 - 1) := by
  intro s s' hs hs' r r' h
  simp only [string, List.append_assoc] at h
  obtain ⟨hsize, h⟩ := delimits_length hs hs' h
  have hlength : s.toUTF8.toList.length = s'.toUTF8.toList.length := by
    rw [toList_toUTF8, toList_toUTF8]
    exact hsize
  obtain ⟨hbytes, hrest⟩ := List.append_inj h hlength
  rw [toList_toUTF8, toList_toUTF8] at hbytes
  have hdata := ByteArray.ext (Array.ext' hbytes)
  exact ⟨String.toByteArray_inj.1 hdata, hrest⟩

theorem delimits_flag : Delimits flag fun _ => True := by
  intro b b' _ _ r r' h
  cases b <;> cases b' <;> simp [flag] at h ⊢ <;> exact h

/-! ## Types, members and methods -/

mutual

theorem delimits_ty : ∀ ⦃t t' : Ty⦄, Fit t.sizes → Fit t'.sizes → ∀ ⦃r r' : Bytes⦄,
    ty t ++ r = ty t' ++ r' → t = t' ∧ r = r'
  | .unit, t', _, _, r, r', h | .bool, t', _, _, r, r', h | .int, t', _, _, r, r', h
  | .float, t', _, _, r, r', h | .str, t', _, _, r, r', h | .object, t', _, _, r, r', h => by
    cases t' <;> simp [ty] at h ⊢
    exact h
  | .named name, t', hfit, hfit', r, r', h => by
    cases t' with
    | named name' =>
      simp only [ty, List.cons_append, List.cons.injEq, true_and] at h
      obtain ⟨hname, hrest⟩ := delimits_string (fit_cons.1 hfit).1 (fit_cons.1 hfit').1 h
      exact ⟨by rw [hname], hrest⟩
    | _ => simp [ty] at h
  | .array elem, t', hfit, hfit', r, r', h => by
    cases t' with
    | array elem' =>
      simp only [ty, List.cons_append, List.cons.injEq, true_and] at h
      rw [Ty.sizes] at hfit hfit'
      obtain ⟨helem, hrest⟩ := delimits_ty hfit hfit' h
      exact ⟨by rw [helem], hrest⟩
    | _ => simp [ty] at h
  | .func params ret, t', hfit, hfit', r, r', h => by
    cases t' with
    | func params' ret' =>
      obtain ⟨hcount, hfit⟩ := fit_cons.1 hfit
      obtain ⟨hparams, hret⟩ := fit_append.1 hfit
      obtain ⟨hcount', hfit'⟩ := fit_cons.1 hfit'
      obtain ⟨hparams', hret'⟩ := fit_append.1 hfit'
      simp only [ty, List.cons_append, List.cons.injEq, true_and, List.append_assoc] at h
      obtain ⟨hlength, h⟩ := delimits_length hcount hcount' h
      obtain ⟨hps, h⟩ := delimits_tys hlength hparams hparams' h
      obtain ⟨hr, hrest⟩ := delimits_ty hret hret' h
      exact ⟨by rw [hps, hr], hrest⟩
    | _ => simp [ty] at h
  | .expr inner, t', hfit, hfit', r, r', h => by
    cases t' with
    | expr inner' =>
      simp only [ty, List.cons_append, List.cons.injEq, true_and] at h
      rw [Ty.sizes] at hfit hfit'
      obtain ⟨hinner, hrest⟩ := delimits_ty hfit hfit' h
      exact ⟨by rw [hinner], hrest⟩
    | _ => simp [ty] at h

/-- Lists of types are written without their lengths, which have been read before. -/
theorem delimits_tys : ∀ ⦃ts ts' : List Ty⦄, ts.length = ts'.length → Fit (Ty.sizesOfAll ts) →
    Fit (Ty.sizesOfAll ts') → ∀ ⦃r r' : Bytes⦄, tys ts ++ r = tys ts' ++ r' → ts = ts' ∧ r = r'
  | [], [], _, _, _, _, _, h => ⟨rfl, h⟩
  | t :: ts, t' :: ts', hlength, hfit, hfit', r, r', h => by
    obtain ⟨ht, hts⟩ := fit_append.1 hfit
    obtain ⟨ht', hts'⟩ := fit_append.1 hfit'
    simp only [tys, List.append_assoc] at h
    obtain ⟨hhead, h⟩ := delimits_ty ht ht' h
    obtain ⟨htail, hrest⟩ := delimits_tys (Nat.succ.inj hlength) hts hts' h
    exact ⟨by rw [hhead, htail], hrest⟩

end

theorem delimits_member : Delimits member fun m => Fit m.sizes := by
  rintro ⟨owner, name, kind, t⟩ ⟨owner', name', kind', t'⟩ hfit hfit' r r' h
  obtain ⟨howner, hfit⟩ := fit_cons.1 hfit
  obtain ⟨hname, hty⟩ := fit_cons.1 hfit
  obtain ⟨howner', hfit'⟩ := fit_cons.1 hfit'
  obtain ⟨hname', hty'⟩ := fit_cons.1 hfit'
  simp only [member, List.append_assoc] at h
  obtain ⟨hcapture, h⟩ := delimits_flag trivial trivial h
  obtain ⟨hwho, h⟩ := delimits_string howner howner' h
  obtain ⟨hnames, h⟩ := delimits_string hname hname' h
  obtain ⟨hkind, h⟩ := delimits_flag trivial trivial h
  obtain ⟨htys, hrest⟩ := delimits_ty hty hty' h
  have howners : owner = owner' := by
    cases owner <;> cases owner' <;> simp_all [Owner.isCapture, Owner.name]
  have hkinds : kind = kind' := by
    cases kind <;> cases kind' <;> simp_all
  subst hnames htys howners hkinds
  exact ⟨rfl, hrest⟩

/-- Lists of members are written without their lengths, which have been read before. -/
theorem delimits_members {ms ms' : List Member} (hlength : ms.length = ms'.length)
    (hfit : Fit (ms.flatMap Member.sizes)) (hfit' : Fit (ms'.flatMap Member.sizes)) {r r' : Bytes}
    (h : ms.flatMap member ++ r = ms'.flatMap member ++ r') : ms = ms' ∧ r = r' := by
  induction ms generalizing ms' with
  | nil =>
    cases ms' with
    | nil => exact ⟨rfl, h⟩
    | cons m' ms' => cases hlength
  | cons m ms ih =>
    cases ms' with
    | nil => cases hlength
    | cons m' ms' =>
      rw [List.flatMap_cons, fit_append] at hfit hfit'
      simp only [List.flatMap_cons, List.append_assoc] at h
      obtain ⟨hhead, h⟩ := delimits_member hfit.1 hfit'.1 h
      obtain ⟨htail, hrest⟩ := ih (Nat.succ.inj hlength) hfit.2 hfit'.2 h
      exact ⟨by rw [hhead, htail], hrest⟩

/-- No list of members and the empty list of members differ. -/
theorem delimits_optMembers : Delimits members fun ms =>
    ∀ l ∈ ms, l.length < 2 ^ 32 - 1 ∧ Fit (l.flatMap Member.sizes) := by
  intro ms ms' hfit hfit' r r' h
  cases ms with
  | none =>
    cases ms' with
    | none => exact ⟨rfl, (delimits_count (by decide) (by decide) h).2⟩
    | some l' =>
      have hlimit := (hfit' l' rfl).1
      simp only [members, List.append_assoc] at h
      obtain ⟨hzero, -⟩ := delimits_count (by decide) (by omega) h
      cases hzero
  | some l =>
    obtain ⟨hlimit, hl⟩ := hfit l rfl
    cases ms' with
    | none =>
      simp only [members, List.append_assoc] at h
      obtain ⟨hzero, -⟩ := delimits_count (by omega) (by decide) h
      cases hzero
    | some l' =>
      obtain ⟨hlimit', hl'⟩ := hfit' l' rfl
      simp only [members, List.append_assoc] at h
      obtain ⟨hlength, h⟩ := delimits_count (by omega) (by omega) h
      obtain ⟨hsame, hrest⟩ := delimits_members (Nat.succ.inj hlength) hl hl' h
      exact ⟨by rw [hsame], hrest⟩

/-- The bytes of a method determine it up to its marker. -/
theorem plain_eq_of_method {m m' : Method} (hfit : Fit m.sizes) (hfit' : Fit m'.sizes)
    {r r' : Bytes} (h : method m ++ r = method m' ++ r') : m.plain = m'.plain ∧ r = r' := by
  obtain ⟨owner, name, isStatic, ret, marker⟩ := m
  obtain ⟨owner', name', isStatic', ret', marker'⟩ := m'
  obtain ⟨howner, hfit⟩ := fit_cons.1 hfit
  obtain ⟨hname, hret⟩ := fit_cons.1 hfit
  obtain ⟨howner', hfit'⟩ := fit_cons.1 hfit'
  obtain ⟨hname', hret'⟩ := fit_cons.1 hfit'
  simp only [method, List.append_assoc] at h
  obtain ⟨howners, h⟩ := delimits_string howner howner' h
  obtain ⟨hnames, h⟩ := delimits_string hname hname' h
  obtain ⟨hstatics, h⟩ := delimits_flag trivial trivial h
  obtain ⟨hrets, hrest⟩ := delimits_ty hret hret' h
  subst howners hnames hstatics hrets
  exact ⟨rfl, hrest⟩

theorem plain_eq_of_optMethod {m m' : Option Method} (hfit : Fit (m.toList.flatMap Method.sizes))
    (hfit' : Fit (m'.toList.flatMap Method.sizes)) {r r' : Bytes}
    (h : optMethod m ++ r = optMethod m' ++ r') :
    m.map Method.plain = m'.map Method.plain ∧ r = r' := by
  cases m with
  | none =>
    cases m' with
    | none => exact ⟨rfl, (List.cons.inj h).2⟩
    | some m' => simp [optMethod] at h
  | some m =>
    cases m' with
    | none => simp [optMethod] at h
    | some m' =>
      have hfit : Fit m.sizes := hfit.of_mem (List.mem_singleton_self m)
      have hfit' : Fit m'.sizes := hfit'.of_mem (List.mem_singleton_self m')
      simp only [optMethod, List.cons_append, List.cons.injEq, true_and] at h
      obtain ⟨hplain, hrest⟩ := plain_eq_of_method hfit hfit' h
      exact ⟨by rw [Option.map_some, Option.map_some, hplain], hrest⟩

end Encoding

end ExprTree

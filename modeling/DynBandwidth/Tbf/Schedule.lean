import DynBandwidth.Reorder.Header

/-! # The schedule of the bandwidth drivers

The drivers `netem.c`, `tbfnetem.c`, `tbfenp.c` and `tbfifb.c` read their schedule from the command
line with the same lines of code: the length of the queue, the number `nbws` of entries, and for
each entry a bandwidth, a delay and a period. The only check compares the number of arguments that
are left with `nbws * 3` in 32 bits, after two arguments have been read (`parse`).

The loop reads `nbws` entries if there are three arguments for each of them, and runs off the end of
the vector otherwise (`readEntries_of_length`, `readEntries_of_lt`). So the check does its work
unless `nbws` is zero or the product wraps, and if there are two arguments at all
(`wellFormed_parse_iff`). -/

namespace DynBandwidth.Tbf.Schedule

open DynBandwidth.Reorder.Header (U32 U64)

/-- An argument, without the byte that ends it. -/
abbrev Arg := List Char

/-! ### `strtoull` -/

/-- The characters that `isspace` skips. -/
def isSpace (c : Char) : Bool := c.toNat == 32 || (9 ≤ c.toNat && c.toNat ≤ 13)

/-- The number that the digits at the front of a string write. -/
def decimal (s : List Char) : ℕ :=
  (s.takeWhile Char.isDigit).foldl (fun v c => 10 * v + (c.toNat - 48)) 0

/-- The result for a sign and the characters behind it: too large numbers give `ULLONG_MAX`. -/
def signed (negative : Bool) (s : List Char) : U64 :=
  if 18446744073709551616 ≤ decimal s then 18446744073709551615
  else if negative then -BitVec.ofNat 64 (decimal s)
  else BitVec.ofNat 64 (decimal s)

/-- `strtoull(s, NULL, 10)`. -/
def strtoull (s : Arg) : U64 :=
  match s.dropWhile isSpace with
  | '-' :: s => signed true s
  | '+' :: s => signed false s
  | s => signed false s

/-! ### The parser -/

structure Timespec where
  tvSec : U64
  tvNsec : U64
  deriving DecidableEq, Repr

structure BwParam where
  bandwidth : U64
  delay : U64
  period : Timespec
  deriving DecidableEq, Repr

/-- A time in nanoseconds. -/
def timespec (tNs : U64) : Timespec :=
  ⟨tNs / 1000000000, tNs - tNs / 1000000000 * 1000000000⟩

/-- An entry of the schedule: the bandwidth is given in bits, the period in microseconds. -/
def bwParam (bandwidth delay period : U64) : BwParam :=
  ⟨bandwidth >>> 3, delay, timespec (period * 1000)⟩

/-- The loop over the entries; `none` if it reads behind the last argument. -/
def readEntries : ℕ → List Arg → Option (List BwParam)
  | 0, _ => some []
  | n + 1, bandwidth :: delay :: period :: argv =>
    (readEntries n argv).map
      (bwParam (strtoull bandwidth) (strtoull delay) (strtoull period) :: ·)
  | _ + 1, _ => none

/-- What becomes of a command line: the program reads an argument that does not exist, exits, or
enters its main loop. -/
inductive Outcome
  | fault
  | exit (status : ℕ)
  | loop (ql : U64) (nbws : U32) (bws : List BwParam)
  deriving DecidableEq, Repr

/-- `nbws`, an `int`. -/
def nbwsOf (arg : Arg) : U32 := (strtoull arg).setWidth 32

/-- **The parser**, on the arguments behind the name of the program. -/
def parse (argv : List Arg) : Outcome :=
  let argc : U32 := BitVec.ofNat 32 (argv.length + 1)
  match argv with
  | ql :: nbws :: argv =>
    if argc - 1 - 1 - 1 ≠ nbwsOf nbws * 3 then .exit 1
    else
      -- The loop counts with an unsigned `i`, so that `nbws` is compared as one.
      match readEntries (nbwsOf nbws).toNat argv with
      | none => .fault
      | some bws => .loop (strtoull ql) (nbwsOf nbws) bws
  | _ => .fault

/-- The round-robin step of the main loop; `none` is a division by zero. -/
def nextIndex (index nbws : U32) : Option U32 :=
  if nbws = 0 then none else some ((index + 1) % nbws)

/-- The arguments behind the name of the program; `argc` is an `int`. -/
structure ArgVector where
  args : List Arg
  argc_lt : args.length + 1 < 2147483648

/-- The program read no argument that does not exist, and if it enters the main loop, `nbws` is at
least one, the vector has the arguments of this many entries, this many have been read, and the
round-robin step stays among them. -/
def WellFormed (argv : List Arg) : Outcome → Prop
  | .fault => False
  | .exit _ => True
  | .loop _ nbws bws =>
    1 ≤ nbws.toInt ∧ (argv.length : ℤ) = 2 + 3 * nbws.toInt ∧ (bws.length : ℤ) = nbws.toInt ∧
      ∀ index, ∃ next, nextIndex index nbws = some next ∧ next.toNat < bws.length

/-! ### The loop over the entries -/

theorem readEntries_of_length : ∀ {n : ℕ} {argv : List Arg}, argv.length = 3 * n →
    ∃ bws, readEntries n argv = some bws ∧ bws.length = n
  | 0, _, _ => ⟨[], rfl, rfl⟩
  | n + 1, bandwidth :: delay :: period :: argv, h => by
    have hrest : argv.length = 3 * n := by
      simp only [List.length_cons] at h
      omega
    obtain ⟨bws, hbws, hlen⟩ := readEntries_of_length hrest
    exact ⟨_, by rw [readEntries, hbws]; rfl, by rw [List.length_cons, hlen]⟩
  | n + 1, [], h => by simp at h
  | n + 1, [_], h => by simp at h; omega
  | n + 1, [_, _], h => by simp at h; omega

theorem readEntries_of_lt : ∀ {n : ℕ} {argv : List Arg}, argv.length < 3 * n →
    readEntries n argv = none
  | 0, _, h => by omega
  | n + 1, bandwidth :: delay :: period :: argv, h => by
    rw [readEntries, readEntries_of_lt (by simp only [List.length_cons] at h; omega)]
    rfl
  | n + 1, [], _ => rfl
  | n + 1, [_], _ => rfl
  | n + 1, [_, _], _ => rfl

theorem nextIndex_lt {nbws : U32} (h : nbws ≠ 0) (index : U32) :
    ∃ next, nextIndex index nbws = some next ∧ next.toNat < nbws.toNat := by
  refine ⟨_, if_neg h, ?_⟩
  rw [BitVec.toNat_umod]
  exact Nat.mod_lt _ (Nat.pos_of_ne_zero fun h0 => h (BitVec.eq_of_toNat_eq h0))

/-! ### What the check excludes -/

/-- The check in plain numbers. -/
theorem check_iff {a : ℕ} (ha : a + 3 < 2147483648) (n : U32) :
    BitVec.ofNat 32 (a + 3) - 1 - 1 - 1 = n * 3 ↔ 3 * n.toNat % 4294967296 = a := by
  have hsub : BitVec.ofNat 32 (a + 3) - 1 - 1 - 1 = BitVec.ofNat 32 a := by
    rw [BitVec.ofNat_add, sub_sub, sub_sub]
    exact add_sub_cancel_right _ _
  rw [hsub, ← BitVec.toNat_inj, BitVec.toNat_mul, BitVec.toNat_ofNat, Nat.mod_eq_of_lt (by omega),
    Nat.mul_comm 3]
  exact eq_comm

/-- The condition under which the parser does what it should: there are two arguments, and if the
low 32 bits of three times the second one are the number of the others, then it is not zero and the
product has no more bits. -/
def Countable (argv : List Arg) : Prop :=
  ∃ ql nbws rest, argv = ql :: nbws :: rest ∧
    (3 * (nbwsOf nbws).toNat % 4294967296 = rest.length →
      nbwsOf nbws ≠ 0 ∧ 3 * (nbwsOf nbws).toNat < 4294967296)

section Parse
variable (ql : Arg) {nbws : Arg} {rest : List Arg}

theorem parse_cons_cons : parse (ql :: nbws :: rest) =
    if BitVec.ofNat 32 (rest.length + 3) - 1 - 1 - 1 ≠ nbwsOf nbws * 3 then .exit 1
    else
      match readEntries (nbwsOf nbws).toNat rest with
      | none => .fault
      | some bws => .loop (strtoull ql) (nbwsOf nbws) bws := rfl

/-- Three arguments for each entry: the main loop is entered. -/
theorem parse_of_length (hlt : rest.length + 3 < 2147483648)
    (h : rest.length = 3 * (nbwsOf nbws).toNat) : ∃ bws,
      parse (ql :: nbws :: rest) = .loop (strtoull ql) (nbwsOf nbws) bws ∧
        bws.length = (nbwsOf nbws).toNat := by
  obtain ⟨bws, hbws, hlen⟩ := readEntries_of_length h
  refine ⟨bws, ?_, hlen⟩
  have hcheck := (check_iff hlt (nbwsOf nbws)).mpr (by rw [← h, Nat.mod_eq_of_lt (by omega)])
  rw [parse_cons_cons, if_neg (by simpa using hcheck), hbws]

/-- The check passes and the product wraps: the arguments end before the entries do. -/
theorem parse_of_wrap (hlt : rest.length + 3 < 2147483648)
    (h : 3 * (nbwsOf nbws).toNat % 4294967296 = rest.length)
    (hwrap : 4294967296 ≤ 3 * (nbwsOf nbws).toNat) : parse (ql :: nbws :: rest) = .fault := by
  have hcheck := (check_iff hlt (nbwsOf nbws)).mpr h
  rw [parse_cons_cons, if_neg (by simpa using hcheck), readEntries_of_lt (by omega)]

theorem parse_of_ne (hlt : rest.length + 3 < 2147483648)
    (h : 3 * (nbwsOf nbws).toNat % 4294967296 ≠ rest.length) :
    parse (ql :: nbws :: rest) = .exit 1 := by
  rw [parse_cons_cons, if_pos fun hcheck => h ((check_iff hlt (nbwsOf nbws)).mp hcheck)]

/-- The main loop is well formed unless it has no entries. -/
theorem wellFormed_loop_iff {bws : List BwParam} (hlt : rest.length + 3 < 2147483648)
    (h : rest.length = 3 * (nbwsOf nbws).toNat) (hlen : bws.length = (nbwsOf nbws).toNat) :
    WellFormed (ql :: nbws :: rest) (.loop (strtoull ql) (nbwsOf nbws) bws) ↔ nbwsOf nbws ≠ 0 := by
  have hint : (nbwsOf nbws).toInt = (nbwsOf nbws).toNat :=
    BitVec.toInt_eq_toNat_of_lt (by omega)
  have hzero : nbwsOf nbws = 0 ↔ (nbwsOf nbws).toNat = 0 := BitVec.toNat_inj.symm
  constructor
  · rintro ⟨hpos, -⟩ h0
    rw [hint, hzero.mp h0] at hpos
    omega
  · intro hne
    refine ⟨?_, ?_, by rw [hint, hlen], fun index => hlen ▸ nextIndex_lt hne index⟩
    · rw [hint]
      have : (nbwsOf nbws).toNat ≠ 0 := fun h0 => hne (hzero.mpr h0)
      omega
    · rw [hint]
      simp only [List.length_cons, h]
      push_cast
      ring

end Parse

/-- **When the parser rejects what is malformed.** -/
theorem wellFormed_parse_iff (v : ArgVector) :
    WellFormed v.args (parse v.args) ↔ Countable v.args := by
  obtain ⟨args, hargc⟩ := v
  rcases args with _ | ⟨ql, _ | ⟨nbws, rest⟩⟩
  -- The program reads its first two arguments before it looks at their number.
  · exact iff_of_false (fun h => h) (by rintro ⟨_, _, _, h, -⟩; cases h)
  · exact iff_of_false (fun h => h) (by rintro ⟨_, _, _, h, -⟩; cases h)
  · have hlt : rest.length + 3 < 2147483648 := hargc
    have hcount : Countable (ql :: nbws :: rest) ↔
        (3 * (nbwsOf nbws).toNat % 4294967296 = rest.length →
          nbwsOf nbws ≠ 0 ∧ 3 * (nbwsOf nbws).toNat < 4294967296) := by
      constructor
      · rintro ⟨_, _, _, h, hc⟩
        cases h
        exact hc
      · exact fun hc => ⟨ql, nbws, rest, rfl, hc⟩
    rw [hcount]
    by_cases hcheck : 3 * (nbwsOf nbws).toNat % 4294967296 = rest.length
    · rcases Nat.lt_or_ge (3 * (nbwsOf nbws).toNat) 4294967296 with hsmall | hwrap
      · have hlen : rest.length = 3 * (nbwsOf nbws).toNat := by omega
        obtain ⟨bws, hparse, hbws⟩ := parse_of_length ql hlt hlen
        rw [hparse, wellFormed_loop_iff ql hlt hlen hbws]
        exact ⟨fun hne _ => ⟨hne, hsmall⟩, fun hc => (hc hcheck).1⟩
      · rw [parse_of_wrap ql hlt hcheck hwrap]
        exact iff_of_false (fun h => h) fun hc => absurd (hc hcheck).2 (by omega)
    · rw [parse_of_ne ql hlt hcheck]
      exact iff_of_true trivial fun h => absurd h hcheck

/-- **An empty schedule is accepted**: `netem 100 0` enters the main loop, which divides by zero. -/
theorem not_wellFormed_empty :
    parse [['1', '0', '0'], ['0']] = .loop 100 0 [] ∧ nextIndex 0 0 = none ∧
      ¬ WellFormed [['1', '0', '0'], ['0']] (parse [['1', '0', '0'], ['0']]) := by
  have hparse : parse [['1', '0', '0'], ['0']] = .loop 100 0 [] := by decide
  refine ⟨hparse, rfl, ?_⟩
  rw [hparse]
  rintro ⟨hpos, -⟩
  exact absurd hpos (by decide)

end DynBandwidth.Tbf.Schedule

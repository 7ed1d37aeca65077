import Xv6.User.Match
import Xv6.User.Memmove
import Mathlib.Data.List.TakeWhile

/-!
# `grep` and the pieces of its input

`grep` of `grep.c` collects what `read` returns in `buf`, writes the lines that match and keeps the
beginning of a line that is not complete.  If the buffer has no newline at all it is emptied
instead, so a line whose beginning comes in a piece of its own loses it (`grep_drops_beginning`).
-/

namespace Xv6.Grep

open Memmove Function List Nat

def BUFSIZE : ℕ := 1024

def newline : UInt8 := 10

/-- The bytes `buf[p]` to `buf[p + n - 1]`. -/
@[simp] def bytes (buf : Mem) (p n : ℕ) : Str := (range' p n).map buf

/-- The C string at `buf + p`. -/
def cstr (buf : Mem) (p : ℕ) : Str := (bytes buf p (BUFSIZE - p)).takeWhile (· != 0)

/-- `strchr(buf + p, c)`, as an index. -/
def strchr (buf : Mem) (p : ℕ) (c : UInt8) : Option ℕ :=
  if c ∈ cstr buf p then some (p + (cstr buf p).idxOf c) else none

/-- The loop over the lines in the buffer: the buffer, `p` and what is written. -/
def lines (pattern : Str) : ℕ → Mem → ℕ → Mem × ℕ × Str
  | 0, buf, p => (buf, p, [])
  | k + 1, buf, p =>
    match strchr buf p newline with
    | none => (buf, p, [])
    | some q =>
      let buf := update buf q 0
      if reMatch pattern (cstr buf p) then
        let buf := update buf q newline
        let r := lines pattern k buf (q + 1)
        (r.1, r.2.1, bytes buf p (q + 1 - p) ++ r.2.2)
      else lines pattern k buf (q + 1)

/-- `read` has stored the piece at `buf + m`. -/
def stored (buf : Mem) (m : ℕ) (piece : Str) : Mem :=
  update (fun a => if m ≤ a then piece.getD (a - m) (buf a) else buf a) (m + piece.length) 0

variable (pattern : Str) {buf : Mem} {ls : List Str}

/-- The body of the loop of `grep`: the buffer, `m` and what is written. -/
def round (buf : Mem) (m : ℕ) (piece : Str) : Mem × ℕ × Str :=
  let r := lines pattern BUFSIZE (stored buf m piece) 0
  let m := if r.2.1 = 0 then 0 else m + piece.length
  if 0 < m then (Ulib.memmove r.1 0 r.2.1 (m - r.2.1 : ℕ), m - r.2.1, r.2.2) else (r.1, m, r.2.2)

/-- What `grep` writes, if `read` returns the pieces. -/
def grep (pattern : Str) : List Str → Mem → ℕ → Str
  | [], _, _ => []
  | piece :: pieces, buf, m =>
    let r := round pattern buf m piece
    r.2.2 ++ grep pattern pieces r.1 r.2.1

/-- The sizes that `grep` asks `read` for. -/
def requests (pattern : Str) : List Str → Mem → ℕ → List ℕ
  | [], _, m => [BUFSIZE - m - 1]
  | piece :: pieces, buf, m =>
    let r := round pattern buf m piece
    (BUFSIZE - m - 1) :: requests pattern pieces r.1 r.2.1

/-- Each piece is of at least one byte, and of at most the size that is asked for. -/
def Reads (pieces : List Str) (buf : Mem) (m : ℕ) : Prop :=
  ∀ x ∈ pieces.zip (requests pattern pieces buf m), 0 < x.1.length ∧ x.1.length ≤ x.2

@[simp] def stream (ls : List Str) : Str := ls.flatMap (· ++ [newline])

/-! ## The buffer -/

theorem bytes_add (buf : Mem) (p a b : ℕ) :
    bytes buf p (a + b) = bytes buf p a ++ bytes buf (p + a) b := by
  rw [bytes, bytes, bytes, ← map_append, range'_append_1]

theorem bytes_congr {buf buf' : Mem} {p n : ℕ} (h : ∀ a, p ≤ a → a < p + n → buf a = buf' a) :
    bytes buf p n = bytes buf' p n := by
  refine map_congr_left fun a ha => ?_
  rw [mem_range'_1] at ha
  exact h a ha.1 ha.2

theorem length_bytes (buf : Mem) (p n : ℕ) : (bytes buf p n).length = n := by simp

theorem cstr_eq {p : ℕ} {l : Str} (h : bytes buf p (l.length + 1) = l ++ [0])
    (h0 : 0 ∉ l) (hp : p + l.length < BUFSIZE) : cstr buf p = l := by
  obtain ⟨k, hk⟩ : ∃ k, BUFSIZE - p = l.length + 1 + k := ⟨BUFSIZE - p - (l.length + 1), by omega⟩
  rw [cstr, hk, bytes_add, h, append_assoc, takeWhile_append_of_pos]
  · simp
  · intro x hx
    simpa using fun e : x = 0 => h0 (e ▸ hx)

theorem strchr_line {p : ℕ} {l t : Str}
    (h : bytes buf p ((l ++ newline :: t).length + 1) = l ++ newline :: t ++ [0])
    (h0 : 0 ∉ l ++ newline :: t) (hl : newline ∉ l)
    (hp : p + (l ++ newline :: t).length < BUFSIZE) :
    strchr buf p newline = some (p + l.length) := by
  rw [strchr, cstr_eq h h0 hp, if_pos (by simp), idxOf_append_of_notMem hl, idxOf_cons_self,
    add_zero]

theorem bytes_split {p n : ℕ} {a b : Str} (h : bytes buf p (a.length + n) = a ++ b) :
    bytes buf p a.length = a ∧ bytes buf (p + a.length) n = b := by
  rw [bytes_add] at h
  exact append_inj h (length_bytes ..)

theorem lines_eq {rest : Str} {k : ℕ} {p : ℕ} (hk : ls.length < k)
    (h : bytes buf p ((stream ls ++ rest).length + 1) = stream ls ++ rest ++ [0])
    (h0 : 0 ∉ stream ls ++ rest) (hl : ∀ l ∈ ls, newline ∉ l) (hr : newline ∉ rest)
    (hp : p + (stream ls ++ rest).length < BUFSIZE) :
    ∃ buf', lines pattern k buf p = (buf', p + (stream ls).length,
      stream (ls.filter (reMatch pattern))) ∧ ∀ a, p + (stream ls).length ≤ a → buf' a = buf a := by
  induction ls generalizing buf p k with
  | nil =>
    obtain ⟨k, rfl⟩ : ∃ n, k = n + 1 := ⟨k - 1, by omega⟩
    have hc : cstr buf p = rest := cstr_eq h h0 hp
    exact ⟨buf, by simp [lines, strchr, hc, hr], fun _ _ => rfl⟩
  | cons l ls ih =>
    obtain ⟨k, rfl⟩ : ∃ n, k = n + 1 := ⟨k - 1, by omega⟩
    have hcons : stream (l :: ls) = l ++ newline :: stream ls := by simp
    have hlen : (stream (l :: ls)).length = l.length + 1 + (stream ls).length := by
      rw [hcons, length_append, length_cons]
      omega
    rw [hcons, append_assoc, cons_append] at h h0 hp
    have hq := strchr_line h h0 (hl l (by simp)) hp
    set q := p + l.length with hqdef
    rw [length_append, length_cons] at hp
    -- the line, its newline and what follows
    have h' : bytes buf p ((l ++ [newline]).length + ((stream ls ++ rest).length + 1)) =
        (l ++ [newline]) ++ (stream ls ++ rest ++ [0]) := by
      rw [show (l ++ [newline]).length + ((stream ls ++ rest).length + 1) =
        (l ++ newline :: (stream ls ++ rest)).length + 1 by simp; omega, h]
      simp
    obtain ⟨hline, htail⟩ := bytes_split h'
    obtain ⟨hb, hnl⟩ := bytes_split (a := l) (n := 1) (by simpa using hline)
    rw [show p + (l ++ [newline]).length = q + 1 by simp [hqdef, add_assoc]] at htail
    have hc : cstr (update buf q 0) p = l := by
      refine cstr_eq ?_ (fun h => h0 (by simp [h])) (by omega)
      rw [bytes_add, bytes_congr fun a _ ha => update_of_ne (by omega) .., hb]
      simp [hqdef]
    -- the loop goes on behind the newline, whether or not it was put back
    have hgo : ∀ buf₁ : Mem, (∀ a, q < a → buf₁ a = buf a) → ∃ buf',
        lines pattern k buf₁ (q + 1) = (buf', q + 1 + (stream ls).length,
          stream (ls.filter (reMatch pattern))) ∧
          ∀ a, p + (stream (l :: ls)).length ≤ a → buf' a = buf a := fun buf₁ hbuf => by
      obtain ⟨buf', heq, hkeep⟩ := ih (p := q + 1) (k := k) (by simpa using hk)
        ((bytes_congr fun a ha _ => hbuf a ha).trans htail)
        (fun h => h0 (mem_append_right l (mem_cons_of_mem _ h)))
        (fun l' hl' => hl l' (by simp [hl'])) (by omega)
      exact ⟨buf', heq, fun a ha => (hkeep a (by omega)).trans (hbuf a (by omega))⟩
    rw [lines, hq]
    simp only [hc]
    split_ifs with hm
    · obtain ⟨buf', heq, hkeep⟩ := hgo (update (update buf q 0) q newline) fun a ha => by
        rw [update_of_ne (by omega), update_of_ne (by omega)]
      refine ⟨buf', ?_, hkeep⟩
      have hout : bytes (update (update buf q 0) q newline) p (q + 1 - p) = l ++ [newline] := by
        rw [show q + 1 - p = l.length + 1 by omega, bytes_add, bytes_congr fun a _ ha => by
          rw [update_of_ne (by omega), update_of_ne (by omega)], hb]
        simp [hqdef]
      rw [heq, hout, filter_cons_of_pos hm, hlen]
      simp [hqdef, add_assoc]
    · obtain ⟨buf', heq, hkeep⟩ := hgo (update buf q 0) fun a ha => update_of_ne (by omega) ..
      refine ⟨buf', ?_, hkeep⟩
      rw [heq, filter_cons_of_neg hm, hlen]
      simp [hqdef, add_assoc]

/-! ## The pieces -/

theorem length_le_stream (ls : List Str) : ls.length ≤ (stream ls).length := by
  induction ls with
  | nil => exact le_refl _
  | cons l ls ih =>
    simp only [stream, flatMap_cons, length_append, length_cons] at ih ⊢
    omega

/-- What has been read consists of lines, and the beginning of the next one. -/
theorem exists_lines {b t : Str} (hls : ∀ l ∈ ls, newline ∉ l)
    (h : b ++ t = stream ls) : ∃ ls₁ ls₂ r, ls = ls₁ ++ ls₂ ∧ b = stream ls₁ ++ r ∧ newline ∉ r ∧
    r ++ t = stream ls₂ := by
  induction ls generalizing b with
  | nil =>
    obtain ⟨rfl, rfl⟩ := append_eq_nil_iff.1 h
    exact ⟨[], [], [], rfl, rfl, by simp, rfl⟩
  | cons l ls ih =>
    have hcons : stream (l :: ls) = (l ++ [newline]) ++ stream ls := by simp
    rw [hcons] at h
    rcases append_eq_append_iff.1 h with ⟨a, ha, ht⟩ | ⟨a, ha, ht⟩
    · rcases a.eq_nil_or_concat with rfl | ⟨a, x, rfl⟩
      · refine ⟨[l], ls, [], rfl, ?_, by simp, ht⟩
        simpa using ha.symm
      · -- the piece ends within the line
        rw [concat_eq_append, ← append_assoc] at ha
        obtain ⟨hl, -⟩ := append_inj' ha rfl
        refine ⟨[], l :: ls, b, rfl, rfl, fun hb => hls l (by simp) (by simp [hl, hb]), ?_⟩
        rw [hcons, h]
    · obtain ⟨ls₁, ls₂, r, rfl, hb, hr, ht'⟩ := ih (fun l hl => hls l (by simp [hl])) ht.symm
      refine ⟨l :: ls₁, ls₂, r, rfl, ?_, hr, ht'⟩
      rw [ha, hb]
      simp

theorem length_lt_of_partial {c t : Str} {n : ℕ} (hls : ∀ l ∈ ls, l.length < n)
    (hc : newline ∉ c) (h : c ++ t = stream ls) (hn : 0 < n) : c.length < n := by
  cases ls with
  | nil => simpa [(append_eq_nil_iff.1 h).1] using hn
  | cons l ls =>
    have hl := hls l (by simp)
    by_contra hlt
    have hcut : c = (l ++ newline :: stream ls).take c.length := by
      rw [show l ++ newline :: stream ls = c ++ t by rw [h]; simp, take_left]
    refine hc (hcut ▸ mem_take_iff_getElem.2 ⟨l.length, ?_, ?_⟩)
    · simp
      omega
    · simp

theorem bytes_stored {c : Str} (piece : Str) (h : bytes buf 0 c.length = c) :
    bytes (stored buf c.length piece) 0 ((c ++ piece).length + 1) = c ++ piece ++ [0] := by
  have h₁ : bytes (stored buf c.length piece) 0 c.length = c := by
    rw [bytes_congr fun a _ ha => ?_, h]
    rw [stored, update_of_ne (by omega), if_neg (by omega)]
  have h₂ : bytes (stored buf c.length piece) (0 + c.length) piece.length = piece := by
    refine ext_getElem (length_bytes ..) fun i _ hi => ?_
    simp [stored, update_of_ne (show c.length + i ≠ c.length + piece.length by omega), hi]
  rw [length_append, bytes_add, bytes_add, h₁, h₂]
  simp [stored]

theorem zero_notMem (hls : ∀ l ∈ ls, newline ∉ l ∧ 0 ∉ l ∧ l.length < 1023) : 0 ∉ stream ls := by
  intro h
  obtain ⟨l, hl, hmem⟩ := mem_flatMap.1 h
  rcases mem_append.1 hmem with hmem | hmem
  · exact (hls l hl).2.1 hmem
  · exact absurd (mem_singleton.1 hmem) (by decide)

section

variable {pattern piece : Str} {pieces : List Str} {buf : Mem} {m : ℕ}
  (h : Reads pattern (piece :: pieces) buf m)

include h

theorem Reads.head : 0 < piece.length ∧ piece.length ≤ BUFSIZE - m - 1 :=
  h (piece, BUFSIZE - m - 1) (by simp [requests])

theorem Reads.tail :
    Reads pattern pieces (round pattern buf m piece).1 (round pattern buf m piece).2.1 :=
  fun x hx => h x (by simp [requests, hx])

end

theorem round_eq {c piece rest : Str}
    (hbuf : bytes buf 0 c.length = c) (hsplit : c ++ piece = stream ls ++ rest)
    (h0 : 0 ∉ c ++ piece) (hl : ∀ l ∈ ls, newline ∉ l) (hr : newline ∉ rest) (hne : ls ≠ [])
    (hsize : c.length + piece.length < BUFSIZE) :
    ∃ buf', round pattern buf c.length piece = (buf', rest.length,
      stream (ls.filter (reMatch pattern))) ∧ bytes buf' 0 rest.length = rest := by
  have hlen : c.length + piece.length = (stream ls).length + rest.length := by
    rw [← length_append, ← length_append, hsplit]
  have hpos : 0 < (stream ls).length := lt_of_lt_of_le (length_pos_iff.2 hne) (length_le_stream ls)
  have hst := bytes_stored piece hbuf
  rw [hsplit] at hst h0
  obtain ⟨b, heq, hkeep⟩ := lines_eq pattern (k := BUFSIZE) (p := 0)
    (lt_of_le_of_lt (length_le_stream ls) (by omega)) hst h0 hl hr (by rw [length_append]; omega)
  rw [zero_add] at heq hkeep
  refine ⟨Ulib.memmove b 0 (stream ls).length (rest.length : ℕ), ?_, ?_⟩
  · have hrest : c.length + piece.length - (stream ls).length = rest.length := by omega
    have hm : (if (stream ls).length = 0 then 0 else c.length + piece.length) = c.length +
      piece.length :=
      if_neg (by omega)
    simp only [round, heq, hm]
    rw [if_pos (by omega), hrest]
  · rw [Ulib.memmove, Int.toNat_natCast, copyUp_eq (.inl (zero_le _))]
    have htail : bytes b (stream ls).length rest.length = rest := by
      have hst' : bytes (stored buf c.length piece) 0 ((stream ls).length + (rest.length + 1)) =
          stream ls ++ (rest ++ [0]) := by
        rw [← add_assoc, ← length_append, hst, append_assoc]
      have := (bytes_split (bytes_split hst').2).1
      rw [zero_add] at this
      rw [bytes_congr fun a ha _ => hkeep a ha, this]
    refine ext_getElem (length_bytes ..) fun i _ hi => ?_
    have hi' := getElem_of_eq htail (i := i) (by rwa [length_bytes])
    simpa [snapshot, hi] using hi'

/-- A piece with a newline: the lines that are complete are written if they match, and the rest is
kept. -/
theorem round_of_newline {c piece t : Str}
    (hbuf : bytes buf 0 c.length = c) (hsplit : c ++ piece ++ t = stream ls)
    (hls : ∀ l ∈ ls, newline ∉ l ∧ 0 ∉ l ∧ l.length < 1023)
    (hsize : c.length + piece.length < BUFSIZE) (hnl : newline ∈ piece) :
    ∃ ls₁ ls₂ r buf', ls = ls₁ ++ ls₂ ∧ c ++ piece = stream ls₁ ++ r ∧ newline ∉ r ∧
      r ++ t = stream ls₂ ∧
      round pattern buf c.length piece = (buf', r.length, stream (ls₁.filter (reMatch pattern))) ∧
      bytes buf' 0 r.length = r := by
  obtain ⟨ls₁, ls₂, r, rfl, hb, hr, hrest⟩ := exists_lines (fun l hl => (hls l hl).1) hsplit
  have hne : ls₁ ≠ [] := by
    rintro rfl
    have hmem : newline ∈ c ++ piece := mem_append_right c hnl
    rw [hb] at hmem
    exact hr (by simpa using hmem)
  obtain ⟨buf', heq, hbuf'⟩ :=
    round_eq pattern hbuf hb (fun h => zero_notMem hls (hsplit ▸ mem_append_left _ h))
    (fun l hl => (hls l (by simp [hl])).1) hr hne hsize
  exact ⟨ls₁, ls₂, r, buf', rfl, hb, hr, hrest, heq, hbuf'⟩

theorem room_of_unended {c t : Str} (hc : newline ∉ c) (hsplit : c ++ t = stream ls)
    (hls : ∀ l ∈ ls, newline ∉ l ∧ 0 ∉ l ∧ l.length < 1023) : 0 < BUFSIZE - c.length - 1 := by
  have := length_lt_of_partial (fun l hl => (hls l hl).2.2) hc hsplit (by decide)
  have : BUFSIZE = 1024 := rfl
  omega

theorem grep_from {pattern : Str} {pieces : List Str} {c : Str}
    (hbuf : bytes buf 0 c.length = c) (hc : newline ∉ c) (hsplit : c ++ pieces.flatten = stream ls)
    (hls : ∀ l ∈ ls, newline ∉ l ∧ 0 ∉ l ∧ l.length < 1023)
    (hread : Reads pattern pieces buf c.length) (hnl : ∀ piece ∈ pieces, newline ∈ piece) :
    grep pattern pieces buf c.length = stream (ls.filter (reMatch pattern)) ∧
      ∀ n ∈ requests pattern pieces buf c.length, 0 < n := by
  have hroom := room_of_unended hc hsplit hls
  induction pieces generalizing buf c ls with
  | nil =>
    have hnil : ls = [] := by
      cases ls with
      | nil => rfl
      | cons l ls =>
        rw [flatten_nil, append_nil] at hsplit
        exact absurd (by simp [hsplit]) hc
    subst hnil
    exact ⟨rfl, forall_mem_singleton.2 hroom⟩
  | cons piece pieces ih =>
    rw [flatten_cons, ← append_assoc] at hsplit
    obtain ⟨hpos, hsize⟩ := hread.head
    obtain ⟨ls₁, ls₂, r, buf', rfl, -, hr, hrest, heq, hbuf'⟩ :=
      round_of_newline pattern hbuf hsplit hls
      (by omega) (hnl piece (by simp))
    have hls' : ∀ l ∈ ls₂, newline ∉ l ∧ 0 ∉ l ∧ l.length < 1023 := fun l hl => hls l (by simp [hl])
    obtain ⟨hgrep, hreq⟩ := ih hbuf' hr hrest hls' (by simpa [heq] using hread.tail)
      (fun l hl => hnl l (by simp [hl]))
      (room_of_unended hr hrest hls')
    constructor
    · simp only [grep, heq, hgrep]
      simp
    · simp only [requests, heq]
      exact forall_mem_cons.2 ⟨hroom, hreq⟩

/-! ## Pieces without a newline -/

theorem strchr_bounds {p q N : ℕ} {c : UInt8} (hq : strchr buf p c = some q)
    (hp : p ≤ N) (h0 : buf N = 0) : p ≤ q ∧ q < N := by
  unfold strchr at hq
  split_ifs at hq with hmem
  obtain rfl := Option.some.inj hq
  refine ⟨Nat.le_add_right .., ?_⟩
  by_contra hlt
  have hN : N - p < (cstr buf p).length := by
    have := idxOf_lt_length_of_mem hmem
    omega
  -- the string would go past the NUL
  have hne := mem_takeWhile_imp (getElem_mem hN)
  rw [show (cstr buf p)[N - p] = _ from ( takeWhile_prefix _).getElem hN] at hne
  simp [Nat.add_sub_cancel' hp, h0] at hne

theorem lines_length_le {k N : ℕ} {p : ℕ} (hp : p ≤ N)
    (h0 : buf N = 0) : p + (lines pattern k buf p).2.2.length ≤ (lines pattern k buf p).2.1 ∧
    (lines pattern k buf p).2.1 ≤ N := by
  induction k generalizing buf p with
  | zero => exact ⟨le_refl _, hp⟩
  | succ k ih =>
    rw [lines]
    split
    · exact ⟨le_refl _, hp⟩
    · rename_i q hq
      obtain ⟨hpq, hqN⟩ := strchr_bounds hq hp h0
      have hzero : update buf q 0 N = 0 := by rwa [update_of_ne (by omega)]
      simp only
      split_ifs
      · have := ih (p := q + 1) hqN
          (show update (update buf q 0) q newline N = 0 by rwa [update_of_ne (by omega)])
        simp only [length_append, length_bytes]
        omega
      · have := ih (p := q + 1) hqN hzero
        omega

theorem round_length_le (buf : Mem) (m : ℕ) (piece : Str) :
    (round pattern buf m piece).2.2.length + (round pattern buf m piece).2.1 ≤ m +
      piece.length := by
  have h := lines_length_le pattern (k := BUFSIZE) (N := m + piece.length) (zero_le _)
    (show stored buf m piece (m + piece.length) = 0 from update_self ..)
  simp only [round]
  split_ifs <;> simp only <;> omega

theorem grep_length_le (pieces : List Str) (buf : Mem) (m : ℕ) :
    (grep pattern pieces buf m).length ≤ m + pieces.flatten.length := by
  induction pieces generalizing buf m with
  | nil => exact zero_le _
  | cons piece pieces ih =>
    have hround := round_length_le pattern buf m piece
    have hrest := ih (round pattern buf m piece).1 (round pattern buf m piece).2.1
    rw [grep, length_append, flatten_cons, length_append]
    omega

/-- A piece without a newline is dropped, and the beginning of the line before it too. -/
theorem round_of_no_newline {c piece : Str}
    (hbuf : bytes buf 0 c.length = c) (h0 : 0 ∉ c ++ piece) (hnl : newline ∉ c ++ piece)
    (hsize : c.length + piece.length < BUFSIZE) :
    ∃ buf', round pattern buf c.length piece = (buf', 0, []) := by
  have hstored : bytes (stored buf c.length piece) 0 ((stream [] ++ (c ++ piece)).length + 1) =
      stream [] ++ (c ++ piece) ++ [0] := bytes_stored piece hbuf
  obtain ⟨b, heq, -⟩ := lines_eq pattern (k := BUFSIZE) (by decide) hstored h0 (by simp) hnl
    (by simpa using hsize)
  exact ⟨b, by simp [round, heq]⟩

theorem grep_short {pieces : List Str} {c : Str}
    (hbuf : bytes buf 0 c.length = c) (hc : newline ∉ c) (hsplit : c ++ pieces.flatten = stream ls)
    (hls : ∀ l ∈ ls, newline ∉ l ∧ 0 ∉ l ∧ l.length < 1023) (hread : Reads [] pieces buf c.length)
    (hnl : ∃ piece ∈ pieces, newline ∉ piece) :
    (grep [] pieces buf c.length).length < c.length + pieces.flatten.length := by
  induction pieces generalizing buf c ls with
  | nil => simp at hnl
  | cons piece pieces ih =>
    rw [flatten_cons, ← append_assoc] at hsplit
    obtain ⟨hpos, hsize⟩ := hread.head
    rw [grep, length_append, flatten_cons, length_append]
    by_cases hp : newline ∈ piece
    · obtain ⟨ls₁, ls₂, r, buf', rfl, hb, hr, hrest, heq, hbuf'⟩ :=
        round_of_newline [] hbuf hsplit hls (by omega) hp
      have hlt := ih hbuf' hr hrest (fun l hl => hls l (by simp [hl]))
        (by simpa [heq] using hread.tail)
        (by simpa [hp] using hnl)
      have hround := round_length_le [] buf c.length piece
      rw [heq] at hround ⊢
      simp only at hround ⊢
      omega
    · obtain ⟨buf', heq⟩ := round_of_no_newline [] hbuf
        (fun h => zero_notMem hls (hsplit ▸ mem_append_left _ h)) (by simp [hc, hp]) (by omega)
      have hle := grep_length_le [] pieces buf' 0
      simp only [heq, length_nil]
      omega

theorem reMatch_nil (l : Str) : reMatch [] l := by
  cases l <;> simp [reMatch, matchFrom, matchhere]

/-- `grep` writes exactly the lines that match, in order, and never asks `read` for nothing,
whatever the pattern is, exactly if each piece that `read` returns has a newline. -/
theorem grep_output (ls pieces : List Str) (hls : ∀ l ∈ ls, newline ∉ l ∧ 0 ∉ l ∧ l.length < 1023)
    (hsplit : pieces.flatten = stream ls) (hread : Reads [] pieces (fun _ => 0) 0) :
    (∀ pattern, Reads pattern pieces (fun _ => 0) 0 →
      grep pattern pieces (fun _ => 0) 0 = stream (ls.filter (reMatch pattern)) ∧
        ∀ n ∈ requests pattern pieces (fun _ => 0) 0, 0 < n) ↔
      ∀ piece ∈ pieces, newline ∈ piece := by
  refine ⟨fun h => ?_, fun hnl pattern hr => grep_from (c := []) rfl (by simp) hsplit hls hr hnl⟩
  by_contra hnl
  -- every line matches the empty pattern, and not every byte is written
  have hlt := grep_short (c := []) rfl (by simp) hsplit hls hread (by simpa using hnl)
  rw [length_nil, (h [] hread).1, filter_eq_self.2 fun l _ => reMatch_nil l, hsplit] at hlt
  omega

/-- The line `a`, and a line `b` that comes in two pieces. -/
theorem grep_output_two : grep [97] [[97, 10, 98], [10]] (fun _ => 0) 0 = [97, 10] ∧
      ∀ n ∈ requests [97] [[97, 10, 98], [10]] (fun _ => 0) 0, 0 < n :=
  (grep_output [[97], [98]] [[97, 10, 98], [10]] (by decide) (by decide)
    (by unfold Reads; decide +kernel)).2 (by decide) [97]
    (by unfold Reads; decide +kernel)

/-- The line `ab` comes in the pieces `a` and `b`, and the pattern is `a`: nothing is written. -/
theorem grep_drops_beginning :
    (∀ x ∈ [[97], [98, 10]].zip (requests [97] [[97], [98, 10]] (fun _ => 0) 0), x.1.length ≤ x.2) ∧
      [[97], [98, 10]].flatten = stream [[97, 98]] ∧ reMatch [97] [97, 98] ∧
        grep [97] [[97], [98, 10]] (fun _ => 0) 0 = [] := by
  decide +kernel

end Xv6.Grep

import Mathlib.Data.List.GetD
import Alp.CommFile

/-!
# Reading with any results

`comm_file_read` on a system whose `read` gives the results of a script, whatever they are:
short counts, empty results and errors, in any order and for ever.  What it returns and
leaves in the buffer is right whenever it ends (`readLoop_done`), and it ends as soon as
the results have all the bytes or more empty reads than the budget.  Errors count for
neither, so they can keep it from ending (`readsRight_iff`).
-/

set_option autoImplicit false

namespace CommFile

open CString Hoare

/-- The bytes of a result. -/
def ReadResult.data : ReadResult → List UInt8
  | .error => []
  | .bytes bs => bs

/-- `read` gives no more bytes than it is asked for. -/
def ReadResult.clip (nbytes : Nat) : ReadResult → ReadResult
  | .error => .error
  | .bytes bs => .bytes (bs.take nbytes)

/-- All bytes received. -/
def received (results : List ReadResult) : List UInt8 :=
  results.flatMap ReadResult.data

/-- A system whose `read` calls give one result of the script after another.  Its state is
the list of the results given. -/
def scripted (script : Nat → ReadResult) : Kernel (List ReadResult) where
  openFile := fun _ _ _ given => (-1, given)
  close := fun _ given => (0, given)
  read := fun _ nbytes given =>
    let r := (script given.length).clip nbytes
    (r, given ++ [r])
  write := fun _ _ given => (-1, given)
  lseek := fun _ _ _ given => (-1, given)
  read_le := by
    intro fd nbytes given bs h
    dsimp only at h
    cases hscript : script given.length with
    | error =>
        rw [hscript] at h
        cases h
    | bytes bs' =>
        rw [hscript] at h
        cases h
        exact List.length_take_le _ _

/-- The next `n` results of the script, from number `k` on. -/
def upcoming (script : Nat → ReadResult) : Nat → Nat → List ReadResult
  | _, 0 => []
  | k, n + 1 => script k :: upcoming script (k + 1) n

/-- The results have `last` bytes, or more than `usCnt` of them are empty. -/
def Ends (last usCnt : Nat) (results : List ReadResult) : Prop :=
  last ≤ (received results).length ∨ usCnt < results.count (.bytes [])

/-- What is received is what the first read gives and what the others give. -/
theorem received_cons (r : ReadResult) (results : List ReadResult) :
    received (r :: results) = r.data ++ received results :=
  List.flatMap_cons

/-- The next `m + n` results are the next `m` and the `n` behind them. -/
theorem upcoming_append (script : Nat → ReadResult) (k m n : Nat) :
    upcoming script k (m + n) = upcoming script k m ++ upcoming script (k + m) n := by
  induction m generalizing k with
  | zero => rw [Nat.zero_add, Nat.add_zero, upcoming, List.nil_append]
  | succ m ih =>
      have harith : k + 1 + m = k + (m + 1) := by omega
      rw [Nat.succ_add, upcoming, upcoming, ih, harith, List.cons_append]

/-- What is received over two stretches is what each gives. -/
theorem received_append (rs results : List ReadResult) :
    received (rs ++ results) = received rs ++ received results :=
  List.flatMap_append

/-- More results do not take an end back. -/
theorem Ends.append {last usCnt : Nat} {rs : List ReadResult} (h : Ends last usCnt rs)
    (results : List ReadResult) : Ends last usCnt (rs ++ results) := by
  unfold Ends at h ⊢
  rw [received_append, List.length_append, List.count_append]
  omega

/-- A script that ends the loop in time does so when more of it is seen. -/
theorem Ends.mono {script : Nat → ReadResult} {last usCnt k m n : Nat}
    (h : Ends last usCnt (upcoming script k m)) (hmn : m ≤ n) :
    Ends last usCnt (upcoming script k n) := by
  obtain ⟨d, rfl⟩ := Nat.exists_eq_add_of_le hmn
  rw [upcoming_append]
  exact h.append _

/-- A read that fails takes nothing from the budget. -/
theorem ends_error (last usCnt : Nat) (results : List ReadResult) :
    Ends last usCnt (.error :: results) ↔ Ends last usCnt results := by
  unfold Ends
  rw [received_cons, List.count_cons_of_ne (by simp)]
  rfl

/-- A read of nothing takes one from the budget. -/
theorem ends_empty {last usCnt : Nat} (results : List ReadResult) :
    Ends last (usCnt + 1) (.bytes [] :: results) ↔ Ends last usCnt results := by
  unfold Ends
  rw [received_cons, List.count_cons_self, Nat.succ_lt_succ_iff]
  rfl

/-- A read of bytes takes them from what is still asked for. -/
theorem ends_bytes (last usCnt : Nat) {bs : List UInt8} (hbs : bs ≠ [])
    (results : List ReadResult) :
    Ends last usCnt (.bytes bs :: results) ↔ Ends (last - (bs.take last).length) usCnt results := by
  have hcons : (ReadResult.bytes bs).data = bs := rfl
  have hne : ReadResult.bytes bs ≠ .bytes [] := by simpa using hbs
  unfold Ends
  rw [received_cons, List.count_cons_of_ne hne, hcons, List.length_append, List.length_take]
  omega

/-- Laying no bytes changes nothing. -/
theorem putBytes_nil (m : Mem) (i : Nat) : putBytes m i [] = m := by
  funext j
  have hout : ¬ (i ≤ j ∧ j < i + 0) := by omega
  rw [putBytes, List.length_nil, if_neg hout]

/-- Bytes put behind one another. -/
theorem putBytes_append (m : Mem) (i : Nat) (bs cs : List UInt8) :
    putBytes (putBytes m i bs) (i + bs.length) cs = putBytes m i (bs ++ cs) := by
  funext j
  unfold putBytes
  rw [List.length_append]
  by_cases hlow : j < i + bs.length
  · have hfirst : ¬ (i + bs.length ≤ j ∧ j < i + bs.length + cs.length) := by omega
    rw [if_neg hfirst]
    by_cases hi : i ≤ j
    · rw [if_pos ⟨hi, hlow⟩, if_pos ⟨hi, by omega⟩, List.getD_append _ _ _ _ (by omega)]
    · rw [if_neg (by omega), if_neg (by omega)]
  · by_cases hhigh : j < i + bs.length + cs.length
    · have hsub : j - i - bs.length = j - (i + bs.length) := by omega
      rw [if_pos ⟨by omega, hhigh⟩, if_pos ⟨by omega, by omega⟩,
        List.getD_append_right _ _ _ _ (by omega), hsub]
    · rw [if_neg (by omega), if_neg (by omega), if_neg (by omega)]

/-- What the loop leaves after the results `given`: it has not ended and the script does
not end it, or it has ended where the script ends it, with the bytes received. -/
def LoopDone (script : Nat → ReadResult) (given : List ReadResult) (fuel last usCnt : Nat)
    (len : Int) (pd : Mem) (r : Option (Int × Mem)) (w : World (List ReadResult)) : Prop :=
  ∃ results, w.kernel = given ++ results ∧ results.length ≤ fuel ∧
    match r with
    | none => ¬ Ends last usCnt (upcoming script given.length fuel)
    | some (n, m) =>
      Ends last usCnt (upcoming script given.length results.length) ∧
        n = len + (received results).length ∧ (received results).length ≤ last ∧
        m = putBytes pd len.toNat (received results)

/-- The loop stops before a call. -/
theorem loopDone_now (script : Nat → ReadResult) {w : World (List ReadResult)}
    (fuel : Nat) {last usCnt : Nat} (len : Int) (pd : Mem)
    (h : last = 0) : LoopDone script w.kernel fuel last usCnt len pd (some (len, pd)) w := by
  refine ⟨[], (List.append_nil _).symm, Nat.zero_le _, Or.inl ?_, ?_, Nat.zero_le _, ?_⟩
  · exact h ▸ Nat.zero_le _
  · exact (Int.add_zero _).symm
  · exact (putBytes_nil pd _).symm

/-- The loop stops after an empty result, when the budget is spent. -/
theorem loopDone_empty {script : Nat → ReadResult} {given : List ReadResult}
    (hscript : script given.length = .bytes []) {w : World (List ReadResult)}
    (hkernel : w.kernel = given ++ [.bytes []]) {fuel last : Nat} (len : Int) (pd : Mem) :
    LoopDone script given (fuel + 1) last 0 len pd (some (len, pd)) w := by
  refine ⟨[.bytes []], hkernel, Nat.succ_le_succ (Nat.zero_le _), Or.inr ?_, ?_, ?_, ?_⟩
  · have hone : upcoming script given.length 1 = [.bytes []] := by
      rw [upcoming, upcoming, hscript]
    rw [List.length_singleton, hone, List.count_singleton_self]
    exact Nat.one_pos
  · exact (Int.add_zero _).symm
  · exact Nat.zero_le _
  · exact (putBytes_nil pd _).symm

/-- One call and what the loop leaves after it. -/
theorem LoopDone.step {script : Nat → ReadResult} {given : List ReadResult} {res : ReadResult}
    {fuel last usCnt last' usCnt' : Nat} {len len' : Int} {pd pd' : Mem}
    {r : Option (Int × Mem)} {w : World (List ReadResult)}
    (h : LoopDone script (given ++ [res]) fuel last' usCnt' len' pd' r w)
    (hends : ∀ rs, Ends last usCnt (script given.length :: rs) ↔ Ends last' usCnt' rs)
    (hnonneg : 0 ≤ len) (hlen : len' = len + res.data.length)
    (hlast : last' + res.data.length = last) (hpd : pd' = putBytes pd len.toNat res.data) :
    LoopDone script given (fuel + 1) last usCnt len pd r w := by
  obtain ⟨results, hkernel, hfuel, hr⟩ := h
  have hlength : (given ++ [res]).length = given.length + 1 := by simp
  rw [hlength] at hr
  refine ⟨res :: results, ?_, Nat.succ_le_succ hfuel, ?_⟩
  · rw [hkernel, List.append_assoc, List.singleton_append]
  cases r with
  | none =>
      intro hend
      exact hr ((hends _).mp hend)
  | some r =>
      obtain ⟨hend, hn, hle, hm⟩ := hr
      refine ⟨(hends _).mpr hend, ?_, ?_, ?_⟩
      · rw [hn, hlen, received_cons, List.length_append]
        omega
      · rw [received_cons, List.length_append]
        omega
      · have hto : len'.toNat = len.toNat + res.data.length := by omega
        rw [hm, hpd, hto, putBytes_append, received_cons]

/-- A call that gives no bytes. -/
theorem LoopDone.skip {script : Nat → ReadResult} {given : List ReadResult} {res : ReadResult}
    {fuel last usCnt usCnt' : Nat} {len : Int} {pd : Mem} {r : Option (Int × Mem)}
    {w : World (List ReadResult)}
    (h : LoopDone script (given ++ [res]) fuel last usCnt' len pd r w) (hdata : res.data = [])
    (hnonneg : 0 ≤ len)
    (hends : ∀ rs, Ends last usCnt (script given.length :: rs) ↔ Ends last usCnt' rs) :
    LoopDone script given (fuel + 1) last usCnt len pd r w := by
  refine h.step hends hnonneg ?_ ?_ ?_
  · rw [hdata]
    exact (Int.add_zero _).symm
  · rw [hdata]
    rfl
  · rw [hdata, putBytes_nil]

/-- One `read` call. -/
theorem sysRead_scripted (script : Nat → ReadResult) (given : List ReadResult) (f : File)
    {last : Nat} (hlast : last < 2 ^ 31) :
    Triple (fun w => w.kernel = given)
      (sysOnFd f (.read (sizeT last)) ((scripted script).read f.fd.num (sizeT last)))
      fun res w => res = (script given.length).clip last ∧ w.kernel = given ++ [res] := by
  rintro w rfl
  have hsize : sizeT last = last := by
    rw [sizeT]
    omega
  rw [hsize]
  exact ⟨rfl, rfl⟩

/-- **The loop.**  Whatever the results are, the loop ends where the script ends it. -/
theorem readLoop_done (script : Nat → ReadResult) (f : File) (fuel : Nat)
    (given : List ReadResult) (last usCnt : Nat) (len : Int) (pd : Mem) (hlen : 0 ≤ len)
    (hsum : len + last < 2 ^ 31) :
    Triple (fun w => w.kernel = given) (readLoop (scripted script) f fuel last usCnt len pd)
      (LoopDone script given fuel last usCnt len pd) := by
  induction fuel generalizing given last usCnt len pd with
  | zero =>
      unfold readLoop
      apply Triple.ite
      · intro hzero
        refine Triple.pure fun w hw => ?_
        rw [← hw]
        exact loopDone_now script 0 len pd (by omega)
      · intro hpos
        refine Triple.pure fun w hw => ⟨[], ?_, le_rfl, ?_⟩
        · rw [hw, List.append_nil]
        · intro hend
          rcases hend with hbytes | hempty
          · exact hpos (by exact_mod_cast Nat.le_zero.mp hbytes)
          · exact Nat.not_lt_zero _ hempty
  | succ fuel ih =>
      unfold readLoop
      dsimp only
      apply Triple.ite
      · intro hzero
        refine Triple.pure fun w hw => ?_
        rw [← hw]
        exact loopDone_now script (fuel + 1) len pd (by omega)
      intro hpos
      refine Triple.bind (sysRead_scripted script given f (by omega)) fun res => ?_
      cases hscript : script given.length with
      | error =>
          rintro w ⟨rfl, hkernel⟩
          refine (ih _ _ _ _ pd hlen hsum w hkernel).skip rfl hlen ?_
          rw [hscript]
          exact ends_error last usCnt
      | bytes bs =>
          rintro w ⟨rfl, hkernel⟩
          have hcInt : cInt (bs.take last).length = (bs.take last).length := by
            have hle := List.length_take_le last bs
            exact cInt_eq (by omega) (by omega)
          simp only [ReadResult.clip, hcInt]
          rw [if_neg (by omega)]
          by_cases hbs : bs = []
          · subst hbs
            have hclip : (ReadResult.bytes []).clip last = .bytes [] :=
              congrArg ReadResult.bytes List.take_nil
            rw [hclip] at hkernel
            rw [List.take_nil, if_neg (by simp), putBytes_nil]
            cases usCnt with
            | zero =>
                have hzero : ((0 : Nat) : Int) = 0 := rfl
                rw [if_pos hzero]
                exact loopDone_empty hscript hkernel len pd
            | succ usCnt =>
                have hpred : ((usCnt + 1 : Nat) : Int) - 1 = usCnt := by omega
                rw [if_neg (by omega), hpred]
                refine (ih _ _ _ _ pd hlen hsum w hkernel).skip rfl hlen ?_
                rw [hscript]
                exact ends_empty
          · have hpos' : 0 < (bs.take last).length := by
              have hbytes := List.length_pos_iff.mpr hbs
              rw [List.length_take]
              omega
            have hle : (bs.take last).length ≤ last := List.length_take_le last bs
            have hrest : cInt ((last : Int) - (bs.take last).length) =
                (last - (bs.take last).length : Nat) := by
              rw [cInt_eq (by omega) (by omega)]
              omega
            have hnext : cInt (len + (bs.take last).length) = len + (bs.take last).length :=
              cInt_eq (by omega) (by omega)
            rw [if_pos (by omega), hrest, hnext]
            refine (ih _ _ _ _ _ (by omega) (by omega) w hkernel).step ?_ hlen ?_ ?_ ?_
            · rw [hscript]
              exact ends_bytes last usCnt hbs
            · rfl
            · exact Nat.sub_add_cancel hle
            · rfl

/-- `comm_file_read` ends after at most `nbytes + 50 * tmsec + 1` calls, returns how many
bytes it received, and has them in the buffer, in order. -/
def ReadsRight (script : Nat → ReadResult) (w : World (List ReadResult)) (buf : Mem)
    (nbytes tmsec : Int) : Prop :=
  ∃ fuel n m results,
    (commFileRead (scripted script) buf nbytes tmsec fuel w).1 = some (n, m) ∧
      (commFileRead (scripted script) buf nbytes tmsec fuel w).2.kernel = w.kernel ++ results ∧
      (results.length : Int) ≤ nbytes + 50 * tmsec + 1 ∧
      n = (received results).length ∧ n ≤ nbytes ∧ m = putBytes buf 0 (received results)

/-- Arguments that are `int` values, with a `tmsec` for which `DLY_CNT` does not overflow. -/
structure ReadArgs (nbytes tmsec : Int) : Prop where
  nbytes_nonneg : 0 ≤ nbytes
  nbytes_lt : nbytes < 2 ^ 31
  tmsec_nonneg : 0 ≤ tmsec
  tmsec_le : tmsec ≤ 2147483

/-- Of the results that fit into the bound, those with bytes have `nbytes`, or more than
`50 * tmsec` are empty. -/
def EndsInTime (script : Nat → ReadResult) (k : Nat) (nbytes tmsec : Int) : Prop :=
  Ends nbytes.toNat (50 * tmsec).toNat (upcoming script k (nbytes + 50 * tmsec + 1).toNat)

/-- A millisecond is 50 delays. -/
theorem dlyCnt_eq (tmsec : Int) : dlyCnt tmsec = 50 * tmsec := by
  have hmul : tmsec * 1000 = 50 * tmsec * 20 := by omega
  rw [dlyCnt, hmul, Int.mul_tdiv_cancel _ (by decide)]

/-- `read` of a closed object answers 0. -/
theorem commFileRead_closed {σ : Type} (K : Kernel σ) (buf : Mem) (nbytes tmsec : Int)
    (fuel : Nat) {w : World σ} (h : w.file.status = 0) :
    commFileRead K buf nbytes tmsec fuel w = (some (0, buf), w) := by
  have hbranch : commFileRead K buf nbytes tmsec fuel w =
      (if w.file.status = 0 then return some (0, buf)
      else readLoop K w.file fuel nbytes (dlyCnt tmsec) 0 buf :
        FileM σ (Option (Int × Mem))) w := rfl
  rw [hbranch, if_pos h]
  rfl

/-- `read` of an open object is its loop. -/
theorem commFileRead_open {σ : Type} (K : Kernel σ) (buf : Mem) (nbytes tmsec : Int)
    (fuel : Nat) {w : World σ} (h : w.file.status ≠ 0) :
    commFileRead K buf nbytes tmsec fuel w =
      readLoop K w.file fuel nbytes (dlyCnt tmsec) 0 buf w := by
  have hbranch : commFileRead K buf nbytes tmsec fuel w =
      (if w.file.status = 0 then return some (0, buf)
      else readLoop K w.file fuel nbytes (dlyCnt tmsec) 0 buf :
        FileM σ (Option (Int × Mem))) w := rfl
  rw [hbranch, if_neg h]

/-- What a call leaves. -/
theorem commFileRead_done (script : Nat → ReadResult) {w : World (List ReadResult)}
    (h : w.file.status ≠ 0) (buf : Mem) {nbytes tmsec : Int} (hargs : ReadArgs nbytes tmsec)
    (fuel : Nat) :
    LoopDone script w.kernel fuel nbytes.toNat (50 * tmsec).toNat 0 buf
      (commFileRead (scripted script) buf nbytes tmsec fuel w).1
      (commFileRead (scripted script) buf nbytes tmsec fuel w).2 := by
  obtain ⟨hnonneg, hlt, htmsec, -⟩ := hargs
  have hdone := readLoop_done script w.file fuel w.kernel nbytes.toNat (50 * tmsec).toNat 0 buf
    (by decide) (by omega) w rfl
  rw [Int.toNat_of_nonneg hnonneg, Int.toNat_of_nonneg (by omega)] at hdone
  rw [commFileRead_open _ _ _ _ _ h, dlyCnt_eq]
  exact hdone

/-- A call on an open file. -/
theorem readsRight_open_iff (script : Nat → ReadResult) {w : World (List ReadResult)}
    (h : w.file.status ≠ 0) (buf : Mem) {nbytes tmsec : Int} (hargs : ReadArgs nbytes tmsec) :
    ReadsRight script w buf nbytes tmsec ↔ EndsInTime script w.kernel.length nbytes tmsec := by
  have hdone := commFileRead_done script h buf hargs
  obtain ⟨hnonneg, -, htmsec, -⟩ := hargs
  constructor
  · rintro ⟨fuel, n, m, results, hr, hkernel, hcalls, -⟩
    obtain ⟨results', hkernel', -, hresult⟩ := hdone fuel
    rw [hr] at hresult
    have hsame : results' = results := List.append_cancel_left (hkernel'.symm.trans hkernel)
    rw [hsame] at hresult
    exact hresult.1.mono (by omega)
  · intro hends
    let fuel := (nbytes + 50 * tmsec + 1).toNat
    obtain ⟨results, hkernel, hcalls, hresult⟩ := hdone fuel
    cases hr : (commFileRead (scripted script) buf nbytes tmsec fuel w).1 with
    | none =>
        rw [hr] at hresult
        exact absurd hends hresult
    | some r =>
        rw [hr] at hresult
        obtain ⟨-, hn, hle, hm⟩ := hresult
        have hle' : (results.length : Int) ≤ nbytes + 50 * tmsec + 1 := by omega
        refine ⟨fuel, r.1, r.2, results, hr, hkernel, hle', ?_, ?_, hm⟩
        · rw [hn, Int.zero_add]
        · omega

/-- **Reading.**  On every script `comm_file_read` does what it should exactly when the
results that fit into the bound end it; on a file that is not open it makes no call. -/
theorem readsRight_iff (script : Nat → ReadResult) (w : World (List ReadResult)) (buf : Mem)
    {nbytes tmsec : Int} (hargs : ReadArgs nbytes tmsec) :
    ReadsRight script w buf nbytes tmsec ↔
      w.file.status = 0 ∨ EndsInTime script w.kernel.length nbytes tmsec := by
  by_cases h : w.file.status = 0
  · refine iff_of_true ?_ (Or.inl h)
    have hclosed := commFileRead_closed (scripted script) buf nbytes tmsec 0 h
    obtain ⟨hnonneg, -, htmsec, -⟩ := hargs
    refine ⟨0, 0, buf, [], ?_, ?_, ?_, rfl, hnonneg, (putBytes_nil buf 0).symm⟩
    · rw [hclosed]
    · rw [hclosed, List.append_nil]
    · rw [List.length_nil]
      omega
  · rw [readsRight_open_iff script h buf hargs]
    exact (or_iff_right h).symm

/-- A file that is open. -/
def openWorld : World (List ReadResult) :=
  ⟨⟨none, ⟨3, some 0⟩, 1, 0, 0, 0⟩, [], 1, []⟩

/-- Two bytes, an error, and more bytes than are asked for. -/
def mixedScript : Nat → ReadResult
  | 0 => .bytes [104, 101]
  | 1 => .error
  | _ => .bytes [108, 108, 111]

/-- A short read, a failed one and a longer one, read right. -/
theorem mixedScript_readsRight : ReadsRight mixedScript openWorld (fun _ => 0) 4 0 :=
  (readsRight_iff mixedScript openWorld (fun _ => 0) ⟨by decide, by decide, by decide,
    by decide⟩).mpr (Or.inr (Or.inl (by decide)))

/-- With a `read` that fails every time, `comm_file_read` does not end. -/
theorem error_not_readsRight : ¬ ReadsRight (fun _ => .error) openWorld (fun _ => 0) 1 0 := by
  have hstatus : openWorld.file.status ≠ 0 := by decide
  rw [readsRight_open_iff _ hstatus _ ⟨by decide, by decide, by decide, by decide⟩]
  rintro (hbytes | hempty)
  · exact absurd hbytes (by decide)
  · exact absurd hempty (by decide)

end CommFile

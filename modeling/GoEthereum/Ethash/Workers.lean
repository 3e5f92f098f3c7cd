/-
  Headers are verified in parallel and reported in order (`verifyHeaders_in_order`).

  `VerifyHeaders` starts workers and a goroutine that hands out the indices and collects them
  again.  The system takes one step at a time, in any order (`Step`).  Every index is in one
  place (`Inv.once`), a step is possible until everything has ended (`Inv.progress`), and there
  are only so many steps (`Step.measure`).
-/
import GoEthereum.Ethash.Consensus

namespace GoEthereum.Ethash

open GoEthereum.Core

/-! ## Goroutines -/

/-- What a worker does. -/
inductive Worker where
  | idle
  | verifying (index : ℕ)
  | sending (index : ℕ)
  | exited
deriving DecidableEq

/-- The state of a call: `R` are the results of the verification. -/
structure Pool (R : Type) where
  /-- The next index to hand out. -/
  inp : ℕ := 0
  /-- The next result to report. -/
  out : ℕ := 0
  /-- The indices that are checked. -/
  checked : List ℕ := []
  /-- The slice of the results; the workers write it. -/
  errors : ℕ → R
  workers : List Worker
  /-- The channel of the workers, with room for one index each. -/
  done : List ℕ := []
  /-- What was sent on the channel of the results. -/
  errorsOut : List R := []
  /-- The goroutine has returned and closed the channel of the indices. -/
  returned : Bool := false
  /-- The indices that were verified. -/
  verified : List ℕ := []

section
variable {R : Type} (n : ℕ)

/-- The loop that reports results while the next one is checked. -/
def release (checked : List ℕ) (errors : ℕ → R) : ℕ → ℕ → List R → ℕ × List R × Bool
  | 0, out, errorsOut => (out, errorsOut, false)
  | fuel + 1, out, errorsOut =>
    if out ∈ checked then
      if out = n - 1 then (out, errorsOut ++ [errors out], true)
      else release checked errors fuel (out + 1) (errorsOut ++ [errors out])
    else (out, errorsOut, false)

/-- The goroutine receives an index that is done. -/
def Pool.collect (s : Pool R) (index : ℕ) (rest : List ℕ) : Pool R :=
  let r := release n (index :: s.checked) s.errors n s.out s.errorsOut
  { s with done := rest, checked := index :: s.checked, out := r.1, errorsOut := r.2.1,
           returned := r.2.2 }

/-- One step of the workers or of the goroutine, when `abort` is not closed. -/
inductive Step (verify : ℕ → R) : Pool R → Pool R → Prop
  | assign (s : Pool R) {l₁ l₂ : List Worker} : s.returned = false → s.inp < n →
      s.workers = l₁ ++ .idle :: l₂ →
      Step verify s { s with inp := s.inp + 1, workers := l₁ ++ .verifying s.inp :: l₂ }
  | verify (s : Pool R) {l₁ l₂ : List Worker} {i : ℕ} : s.workers = l₁ ++ .verifying i :: l₂ →
      Step verify s { s with errors := fun j => if j = i then verify i else s.errors j,
                             workers := l₁ ++ .sending i :: l₂, verified := i :: s.verified }
  | send (s : Pool R) {l₁ l₂ : List Worker} {i : ℕ} : s.workers = l₁ ++ .sending i :: l₂ →
      s.done.length < s.workers.length →
      Step verify s { s with workers := l₁ ++ .idle :: l₂, done := s.done ++ [i] }
  | collect (s : Pool R) {i : ℕ} {rest : List ℕ} : s.returned = false → s.done = i :: rest →
      Step verify s (s.collect n i rest)
  | exit (s : Pool R) {l₁ l₂ : List Worker} : s.returned = true →
      s.workers = l₁ ++ .idle :: l₂ → Step verify s { s with workers := l₁ ++ .exited :: l₂ }

/-- The states after a number of steps. -/
inductive Runs (verify : ℕ → R) (start : Pool R) : ℕ → Pool R → Prop
  | start : Runs verify start 0 start
  | step {k : ℕ} {s s' : Pool R} : Runs verify start k s → Step n verify s s' →
      Runs verify start (k + 1) s'

end

/-! ## Where the indices are -/

/-- The index that a worker holds. -/
def Worker.held : Worker → Option ℕ
  | verifying i | sending i => some i
  | idle | exited => none

/-- The steps that a worker has to take before it exits. -/
def Worker.weight : Worker → ℕ
  | idle => 1
  | verifying _ => 4
  | sending _ => 3
  | exited => 0

section
variable {R : Type} {n : ℕ} {verify : ℕ → R} {s s' start : Pool R}

theorem countP_split (p : Worker → Bool) (l₁ l₂ : List Worker) (x : Worker) :
    (l₁ ++ x :: l₂).countP p = l₁.countP p + l₂.countP p + if p x then 1 else 0 := by
  rw [List.countP_append, List.countP_cons, Nat.add_assoc]

/-- What holds in every state: there are workers, an index that was handed out is held by one of
    them, is done or is checked, and the results are reported in order. -/
structure Inv (n : ℕ) (verify : ℕ → R) (s : Pool R) : Prop where
  workers : s.workers ≠ []
  inp : s.inp ≤ n
  once : ∀ i, s.workers.countP (·.held = some i) + s.done.count i + s.checked.count i =
    if i < s.inp then 1 else 0
  verified : ∀ i, s.verified.count i =
    s.workers.countP (· = .sending i) + s.done.count i + s.checked.count i
  errors : ∀ i ∈ s.verified, s.errors i = verify i
  running : s.returned = false → .exited ∉ s.workers ∧ s.out < n ∧ s.out ∉ s.checked ∧
    (∀ i < s.out, i ∈ s.checked) ∧ s.errorsOut = (List.range s.out).map verify
  returned : s.returned = true → (∀ i < n, i ∈ s.checked) ∧ s.errorsOut = (List.range n).map verify

theorem Inv.mem_verified (h : Inv n verify s) {i : ℕ} (hi : i ∈ s.checked) : i ∈ s.verified := by
  have := h.verified i
  have := List.count_pos_iff.2 hi
  exact List.count_pos_iff.1 (by omega)

theorem release_spec {checked : List ℕ} {errors : ℕ → R}
    (herrors : ∀ i ∈ checked, errors i = verify i) {fuel out : ℕ} {errorsOut : List R}
    (hout : out < n) (hfuel : n - out ≤ fuel) (hdone : ∀ i < out, i ∈ checked)
    (hresults : errorsOut = (List.range out).map verify) :
    let r := release n checked errors fuel out errorsOut
    (r.2.2 = false → r.1 < n ∧ r.1 ∉ checked ∧ (∀ i < r.1, i ∈ checked) ∧
      r.2.1 = (List.range r.1).map verify) ∧
      (r.2.2 = true → (∀ i < n, i ∈ checked) ∧ r.2.1 = (List.range n).map verify) := by
  induction fuel generalizing out errorsOut with
  | zero => omega
  | succ fuel ih =>
    rw [release]
    by_cases hmem : out ∈ checked
    · have hnext : errorsOut ++ [errors out] = (List.range (out + 1)).map verify := by
        rw [hresults, herrors out hmem, List.range_succ, List.map_append]
        rfl
      have hdone' : ∀ i < out + 1, i ∈ checked := by
        intro i hi
        rcases Nat.lt_succ_iff_lt_or_eq.1 hi with hi | rfl
        · exact hdone i hi
        · exact hmem
      rw [if_pos hmem]
      split_ifs with hlast
      · have hn : out + 1 = n := by omega
        refine ⟨fun h => (by cases h), fun _ => ⟨hn ▸ hdone', ?_⟩⟩
        rw [hnext, hn]
      · exact ih (by omega) (by omega) hdone' hnext
    · rw [if_neg hmem]
      exact ⟨fun _ => ⟨hout, hmem, hdone, hresults⟩, fun h => (by cases h)⟩

theorem Inv.step (h : Inv n verify s) (hstep : Step n verify s s') : Inv n verify s' := by
  cases hstep with
  | @assign l₁ l₂ hreturned hlt hworkers =>
    have hcount := fun p => hworkers ▸ countP_split p l₁ l₂ .idle
    refine ⟨by simp, hlt, fun i => ?_, fun i => ?_, h.errors, fun _ => ?_, h.returned⟩
    · have honce := h.once i
      rw [hcount] at honce
      rw [countP_split]
      simp only [Worker.held, Option.some.injEq, decide_eq_true_eq, reduceCtorEq, decide_false,
        Bool.false_eq_true, if_false] at honce ⊢
      split_ifs at honce ⊢ <;> omega
    · have hverified := h.verified i
      rw [hcount] at hverified
      rw [countP_split]
      simpa using hverified
    · obtain ⟨hexited, hrest⟩ := h.running hreturned
      rw [hworkers] at hexited
      exact ⟨by simpa using hexited, hrest⟩
  | @verify l₁ l₂ i hworkers =>
    have hcount := fun p => hworkers ▸ countP_split p l₁ l₂ (.verifying i)
    refine ⟨by simp, h.inp, fun j => ?_, fun j => ?_, fun j hj => ?_, fun hreturned => ?_,
      h.returned⟩
    · have honce := h.once j
      rw [hcount] at honce
      rw [countP_split]
      exact honce
    · have hverified := h.verified j
      rw [hcount] at hverified
      rw [countP_split, List.count_cons, hverified]
      simp only [Worker.sending.injEq, decide_eq_true_eq, reduceCtorEq, decide_false,
        Bool.false_eq_true, if_false, beq_iff_eq]
      omega
    · by_cases hij : j = i
      · rw [hij]
        exact if_pos rfl
      · exact (if_neg hij).trans (h.errors j ((List.mem_cons.1 hj).resolve_left hij))
    · obtain ⟨hexited, hrest⟩ := h.running hreturned
      rw [hworkers] at hexited
      exact ⟨by simpa using hexited, hrest⟩
  | @send l₁ l₂ i hworkers hroom =>
    have hcount := fun p => hworkers ▸ countP_split p l₁ l₂ (.sending i)
    refine ⟨by simp, h.inp, fun j => ?_, fun j => ?_, h.errors, fun hreturned => ?_, h.returned⟩
    · have honce := h.once j
      rw [hcount] at honce
      rw [countP_split, List.count_append, List.count_singleton]
      simp only [Worker.held, Option.some.injEq, decide_eq_true_eq, reduceCtorEq, decide_false,
        Bool.false_eq_true, if_false, beq_iff_eq] at honce ⊢
      omega
    · have hverified := h.verified j
      rw [hcount] at hverified
      rw [countP_split, List.count_append, List.count_singleton, hverified]
      simp only [Worker.sending.injEq, decide_eq_true_eq, reduceCtorEq, decide_false,
        Bool.false_eq_true, if_false, beq_iff_eq]
      omega
    · obtain ⟨hexited, hrest⟩ := h.running hreturned
      rw [hworkers] at hexited
      exact ⟨by simpa using hexited, hrest⟩
  | @collect i rest hreturned hdone =>
    obtain ⟨hexited, hout, -, hbefore, hresults⟩ := h.running hreturned
    have hmem : ∀ j ∈ i :: s.checked, j ∈ s.verified := by
      intro j hj
      rcases List.mem_cons.1 hj with rfl | hj
      · have hverified := h.verified j
        rw [hdone, List.count_cons_self] at hverified
        exact List.count_pos_iff.1 (by omega)
      · exact h.mem_verified hj
    have hrelease := release_spec (fun j hj => h.errors j (hmem j hj)) hout (Nat.sub_le n _)
      (fun j hj => .tail i (hbefore j hj)) hresults
    refine ⟨h.workers, h.inp, fun j => ?_, fun j => ?_, h.errors, fun hr => ?_, hrelease.2⟩
    · have honce := h.once j
      rw [hdone, List.count_cons] at honce
      rw [Pool.collect, List.count_cons]
      dsimp only
      omega
    · have hverified := h.verified j
      rw [hdone, List.count_cons] at hverified
      rw [Pool.collect, List.count_cons]
      dsimp only
      omega
    · exact ⟨hexited, hrelease.1 hr⟩
  | @exit l₁ l₂ hreturned hworkers =>
    have hcount := fun p => hworkers ▸ countP_split p l₁ l₂ .idle
    refine ⟨by simp, h.inp, fun j => ?_, fun j => ?_, h.errors, fun hr => ?_, h.returned⟩
    · have honce := h.once j
      rw [hcount] at honce
      rw [countP_split]
      exact honce
    · have hverified := h.verified j
      rw [hcount] at hverified
      rw [countP_split]
      simpa using hverified
    · exact absurd (hreturned.symm.trans hr) (by decide)

theorem Inv.progress (h : Inv n verify s) (hstuck : ∀ s', ¬ Step n verify s s') :
    s.returned = true ∧ ∀ w ∈ s.workers, w = .exited := by
  have hverifying : ∀ i, .verifying i ∉ s.workers := by
    intro i hi
    obtain ⟨l₁, l₂, hworkers⟩ := List.append_of_mem hi
    exact hstuck _ (.verify s hworkers)
  cases hreturned : s.returned with
  | false =>
    obtain ⟨hexited, hout, hnext, -⟩ := h.running hreturned
    have hdone : s.done = [] := by
      rcases hdone : s.done with _ | ⟨i, rest⟩
      · rfl
      · exact absurd (Step.collect s hreturned hdone) (hstuck _)
    have hsending : ∀ i, .sending i ∉ s.workers := by
      intro i hi
      obtain ⟨l₁, l₂, hworkers⟩ := List.append_of_mem hi
      refine hstuck _ (.send s hworkers ?_)
      rw [hdone]
      exact List.length_pos_iff.2 h.workers
    have hidle : ∀ w ∈ s.workers, w = .idle := by
      intro w hw
      cases w with
      | idle => rfl
      | verifying i => exact absurd hw (hverifying i)
      | sending i => exact absurd hw (hsending i)
      | exited => exact absurd hw hexited
    have hinp : ¬ s.inp < n := by
      intro hlt
      obtain ⟨w, hw⟩ := List.exists_mem_of_ne_nil _ h.workers
      obtain rfl := hidle w hw
      obtain ⟨l₁, l₂, hworkers⟩ := List.append_of_mem hw
      exact hstuck _ (.assign s hreturned hlt hworkers)
    -- every index is checked, so the loop would have reported the next one
    have hfree : s.workers.countP (·.held = some s.out) = 0 := by
      rw [List.countP_eq_zero]
      intro w hw
      rw [hidle w hw]
      simp [Worker.held]
    have honce := h.once s.out
    rw [hfree, hdone, List.count_nil, if_pos (by omega)] at honce
    exact absurd (List.count_pos_iff.1 (by omega)) hnext
  | true =>
    refine ⟨rfl, fun w hw => ?_⟩
    cases w with
    | idle =>
      obtain ⟨l₁, l₂, hworkers⟩ := List.append_of_mem hw
      exact absurd (Step.exit s hreturned hworkers) (hstuck _)
    | verifying i => exact absurd hw (hverifying i)
    | sending i =>
      have honce := h.once i
      have hheld : 0 < s.workers.countP (·.held = some i) :=
        List.countP_pos_iff.2 ⟨_, hw, by simp [Worker.held]⟩
      split_ifs at honce with hi
      · have := List.count_pos_iff.2 ((h.returned hreturned).1 i (hi.trans_le h.inp))
        omega
      · omega
    | exited => rfl

/-- The number of steps that can follow. -/
def Pool.measure (n : ℕ) (s : Pool R) : ℕ :=
  4 * (n - s.inp) + (s.workers.map Worker.weight).sum + s.done.length

theorem Step.measure (hstep : Step n verify s s') : s'.measure n + 1 = s.measure n := by
  have hsum : ∀ (l₁ l₂ : List Worker) (x : Worker), ((l₁ ++ x :: l₂).map Worker.weight).sum =
      (l₁.map Worker.weight).sum + (l₂.map Worker.weight).sum + x.weight := by
    intro l₁ l₂ x
    rw [List.map_append, List.sum_append, List.map_cons, List.sum_cons]
    omega
  cases hstep with
  | @assign l₁ l₂ _ hlt hworkers | @verify l₁ l₂ i hworkers | @exit l₁ l₂ _ hworkers =>
    simp only [Pool.measure, hworkers, hsum, Worker.weight]
    omega
  | @send l₁ l₂ i hworkers _ =>
    simp only [Pool.measure, hworkers, hsum, Worker.weight, List.length_append,
      List.length_singleton]
    omega
  | @collect i rest _ hdone =>
    simp only [Pool.measure, Pool.collect, hdone, List.length_cons]
    omega

theorem Runs.measure {k : ℕ} (hr : Runs n verify start k s) :
    s.measure n + k = start.measure n := by
  induction hr with
  | start => rfl
  | step _ hstep ih =>
    have := hstep.measure
    omega

theorem Runs.inv {k : ℕ} (hr : Runs n verify start k s) (hstart : Inv n verify start) :
    Inv n verify s := by
  induction hr with
  | start => exact hstart
  | step _ hstep ih => exact ih.step hstep

theorem Inv.count_verified_le (h : Inv n verify s) (i : ℕ) :
    s.verified.count i ≤ if i < s.inp then 1 else 0 := by
  have hle : s.workers.countP (· = .sending i) ≤ s.workers.countP (·.held = some i) := by
    refine List.countP_mono_left fun w _ hw => ?_
    rw [of_decide_eq_true hw]
    exact decide_eq_true rfl
  have := h.once i
  have := h.verified i
  omega

theorem Inv.nodup_verified (h : Inv n verify s) : s.verified.Nodup := by
  rw [List.nodup_iff_count_le_one]
  intro i
  have := h.count_verified_le i
  split_ifs at this <;> omega

theorem Inv.verified_perm (h : Inv n verify s) (hreturned : s.returned = true) :
    s.verified.Perm (List.range n) := by
  refine (List.perm_ext_iff_of_nodup h.nodup_verified List.nodup_range).2 fun i => ?_
  rw [List.mem_range]
  constructor
  · intro hi
    have hle := h.count_verified_le i
    have hpos := List.count_pos_iff.2 hi
    have hinp := h.inp
    split_ifs at hle <;> omega
  · exact fun hi => h.mem_verified ((h.returned hreturned).1 i hi)

end

/-! ## Headers -/

/-- The errors of `VerifyHeaders`. -/
inductive HeaderError where
  | unknownAncestor
  | verify (err : VerifyError)
deriving DecidableEq

section
variable (e : Engine) (getHeader : Word → UInt64 → Option Header) (headers : List (Header × Bool))

/-- The parent that a header is verified against: the header before it, if it is linked to it. -/
def parentOf (index : ℕ) (header : Header) : Option Header :=
  if index = 0 then getHeader header.parentHash (header.numberU64 - 1)
  else headers[index - 1]?.bind fun previous =>
    if previous.1.hash = header.parentHash then some previous.1 else none

/-- `verifyHeaderWorker`, for headers with what says whether their seal is verified. -/
def verifyHeaderWorker (index : ℕ) : Except HeaderError Unit :=
  match headers[index]? with
  | none => .ok ()
  | some (header, withSeal) => match parentOf getHeader headers index header with
    | none => .error .unknownAncestor
    | some parent =>
      if (getHeader header.hash header.numberU64).isSome then .ok ()
      else (e.verifyHeader header parent false withSeal).mapError .verify

/-- `VerifyHeaders`, when the goroutines are started. -/
def verifyHeaders (procs : ℕ) : Pool (Except HeaderError Unit) :=
  if e.powMode = .fullFake ∨ headers.length = 0 then
    { errors := fun _ => .ok (), workers := [], returned := true
      errorsOut := List.replicate headers.length (.ok ()) }
  else { errors := fun _ => .ok (), workers := List.replicate (min procs headers.length) .idle }

/-- The result of a header: the engine of full fakes accepts everything. -/
def verifyAt (index : ℕ) : Except HeaderError Unit :=
  if e.powMode = .fullFake then .ok () else verifyHeaderWorker e getHeader headers index

variable {e getHeader headers}

theorem inv_verifyHeaders {procs : ℕ} (hprocs : 0 < procs) (hfake : e.powMode ≠ .fullFake)
    (hheaders : headers.length ≠ 0) : Inv headers.length (verifyHeaderWorker e getHeader headers)
      (verifyHeaders e headers procs) := by
  have hidle : ∀ p : Worker → Bool, p .idle = false →
      (List.replicate (min procs headers.length) Worker.idle).countP p = 0 := by
    intro p hp
    rw [List.countP_eq_zero]
    intro w hw
    rw [(List.mem_replicate.1 hw).2, hp]
    decide
  rw [verifyHeaders, if_neg (not_or.2 ⟨hfake, hheaders⟩)]
  refine ⟨fun h => ?_, Nat.zero_le _, fun i => hidle _ rfl, fun i => (hidle _ rfl).symm,
    fun i hi => (by cases hi), fun _ => ⟨fun h => ?_, Nat.pos_of_ne_zero hheaders,
      List.not_mem_nil, fun i hi => absurd hi (Nat.not_lt_zero i), rfl⟩, fun h => (by cases h)⟩
  · have := congrArg List.length h
    rw [List.length_replicate, List.length_nil] at this
    omega
  · cases (List.mem_replicate.1 h).2

theorem runs_fake {n k procs : ℕ} {verify : ℕ → Except HeaderError Unit}
    {s : Pool (Except HeaderError Unit)} (hfake : e.powMode = .fullFake ∨ headers.length = 0)
    (hr : Runs n verify (verifyHeaders e headers procs) k s) :
    k = 0 ∧ s = verifyHeaders e headers procs := by
  have hnone : ∀ s', ¬ Step n verify (verifyHeaders e headers procs) s' := by
    rw [verifyHeaders, if_pos hfake]
    intro s' hstep
    cases hstep <;> simp_all
  induction hr with
  | start => exact ⟨rfl, rfl⟩
  | step _ hstep ih =>
    obtain ⟨-, rfl⟩ := ih
    exact absurd hstep (hnone _)

/-- **Headers are reported in order.**  For all headers, any number of workers and every order of
    the steps: the number of steps is bounded, what was reported is the beginning of the results of
    all headers, and no header is verified twice.  A step is possible until the goroutines have
    ended, and then all results were reported and every header was verified. -/
theorem verifyHeaders_in_order {procs : ℕ} (hprocs : 0 < procs) {k : ℕ}
    {s : Pool (Except HeaderError Unit)} (hr : Runs headers.length
      (verifyHeaderWorker e getHeader headers) (verifyHeaders e headers procs) k s) :
    k ≤ 4 * headers.length + procs ∧
      s.errorsOut <+: (List.range headers.length).map (verifyAt e getHeader headers) ∧
      s.verified.Nodup ∧
      ((∃ s', Step headers.length (verifyHeaderWorker e getHeader headers) s s') ∨
        s.returned = true ∧ (∀ w ∈ s.workers, w = .exited) ∧
          s.errorsOut = (List.range headers.length).map (verifyAt e getHeader headers) ∧
          (e.powMode ≠ .fullFake → s.verified.Perm (List.range headers.length))) := by
  by_cases hfake : e.powMode = .fullFake ∨ headers.length = 0
  · obtain ⟨rfl, rfl⟩ := runs_fake hfake hr
    have hresults : List.replicate headers.length (.ok ()) =
        (List.range headers.length).map (verifyAt e getHeader headers) := by
      rcases hfake with hfake | hzero
      · refine (List.eq_replicate_iff.2 ⟨by simp, fun r hr => ?_⟩).symm
        obtain ⟨i, -, rfl⟩ := List.mem_map.1 hr
        exact if_pos hfake
      · rw [hzero]
        rfl
    rw [verifyHeaders, if_pos hfake]
    refine ⟨Nat.zero_le _, hresults ▸ List.prefix_rfl, .nil, .inr ⟨rfl, fun w hw => (by cases hw),
      hresults, fun hmode => ?_⟩⟩
    rw [hfake.resolve_left hmode]
    exact .nil
  · obtain ⟨hmode, hheaders⟩ := not_or.1 hfake
    have hverify : verifyAt e getHeader headers = verifyHeaderWorker e getHeader headers :=
      funext fun i => if_neg hmode
    have hinv := hr.inv (inv_verifyHeaders hprocs hmode hheaders)
    rw [hverify]
    refine ⟨?_, ?_, hinv.nodup_verified, ?_⟩
    · have hmeasure := hr.measure
      rw [verifyHeaders, if_neg hfake] at hmeasure
      simp only [Pool.measure, List.map_replicate, List.sum_replicate, Worker.weight, smul_eq_mul,
        List.length_nil] at hmeasure
      omega
    · cases hreturned : s.returned with
      | false =>
        obtain ⟨-, hout, -, -, hresults⟩ := hinv.running hreturned
        rw [hresults, ← Nat.min_eq_left hout.le, ← List.take_range]
        exact (List.take_prefix _ _).map _
      | true =>
        rw [(hinv.returned hreturned).2]
    · by_cases hstuck : ∃ s', Step headers.length (verifyHeaderWorker e getHeader headers) s s'
      · exact .inl hstuck
      · obtain ⟨hreturned, hexited⟩ := hinv.progress (not_exists.1 hstuck)
        exact .inr ⟨hreturned, hexited, (hinv.returned hreturned).2,
          fun _ => hinv.verified_perm hreturned⟩

end

/-- A header without a parent, and one above it from the same second. -/
def orphans : List (Header × Bool) :=
  [({ hash := 1, parentHash := 0, difficulty := 0, number := 1 }, false),
    ({ hash := 2, parentHash := 1, difficulty := 0, number := 2 }, false)]

/-- The engine of the tests. -/
def testEngine : Engine where
  powMode := .test
  pow _ := (0, 0)

/-- The second header is verified before the first one. -/
theorem verifyHeaders_in_order_orphans : ∃ s, Runs orphans.length
    (verifyHeaderWorker testEngine (fun _ _ => none) orphans) (verifyHeaders testEngine orphans 2)
      8 s ∧ s.verified = [0, 1] ∧
      s.errorsOut = [.error .unknownAncestor, .error (.verify .zeroBlockTime)] ∧
      s.errorsOut <+: (List.range 2).map (verifyAt testEngine (fun _ _ => none) orphans) := by
  have h₀ : Runs orphans.length (verifyHeaderWorker testEngine (fun _ _ => none) orphans)
      (verifyHeaders testEngine orphans 2) 0 _ := .start
  have h₁ := h₀.step (@Step.assign _ _ _ _ [] [.idle] rfl (by decide) rfl)
  have h₂ := h₁.step (@Step.assign _ _ _ _ [.verifying 0] [] rfl (by decide) rfl)
  have h₃ := h₂.step (@Step.verify _ _ _ _ [.verifying 0] _ _ rfl)
  have h₄ := h₃.step (@Step.send _ _ _ _ [.verifying 0] _ _ rfl (by decide))
  have h₅ := h₄.step (.collect _ rfl rfl)
  have h₆ := h₅.step (@Step.verify _ _ _ _ [] _ _ rfl)
  have h₇ := h₆.step (@Step.send _ _ _ _ [] _ _ rfl (by decide))
  have h₈ := h₇.step (.collect _ rfl rfl)
  exact ⟨_, h₈, rfl, rfl, (verifyHeaders_in_order (by decide) h₈).2.1⟩

end GoEthereum.Ethash

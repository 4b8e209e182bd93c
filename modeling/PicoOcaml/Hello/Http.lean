import PicoOcaml.Hello.Body
import PicoOcaml.Pio.Thread

/-! `http_get` as the code of a fiber: what it performs, and how it ends. -/
namespace PicoOcaml.Hello

open OcamlBytes (maxStringLength)
open Pio (Answer Code Dialogue Doing Exn NetEff Val)

/-- How a client fails. -/
inductive Failure
  | raised (e : Exn)
  | invalidArg (msg : String)
deriving DecidableEq

abbrev Fetched := Except Failure OcamlBytes.Bytes

/-- A chunk as a string of OCaml. -/
def bytes (chunk : Pio.Bytes) : OcamlBytes.Bytes := ⟨chunk.take maxStringLength, List.length_take_le _ _⟩

/-- `read_all`, and what follows it; the chunks in `acc` are those of `loop`. -/
def readAll {α : Type*} (sock : ℤ) (next : List Pio.Bytes → Code α) (acc : List Pio.Bytes) : Code α
  | [] => .perform (.tcpRead sock)
  | .value (.bytes chunk) :: answers =>
    if chunk.length > 0 then readAll sock next (chunk :: acc) answers else next acc.reverse answers
  | _ :: answers => next acc.reverse answers

def octets (s : String) : Pio.Bytes := s.toList.flatMap String.utf8EncodeChar

def request (host path : String) : Pio.Bytes :=
  octets "GET " ++ octets path ++ octets " HTTP/1.0\r\nHost: " ++ octets host ++
    octets "\r\nUser-Agent: curl/8.0\r\nAccept: */*\r\n\r\n"

/-- `http_get` once it has the chunks. -/
def httpClose (junk : ℕ → UInt8) (sock : ℤ) (chunks : List Pio.Bytes) : Code Fetched := fun answers =>
  match concatChunks junk (chunks.map bytes) with
  | .error msg => .done (.error (.invalidArg msg))
  | .ok response =>
    match answers with
    | [] => .perform (.tcpClose sock)
    | .exn e :: _ => .done (.error (.raised e))
    | .value _ :: _ => .done ((findBody response).mapError .invalidArg)

/-- `http_get` once it is connected. -/
def httpExchange (junk : ℕ → UInt8) (sock : ℤ) (host path : String) : Code Fetched
  | [] => .perform (.tcpWrite sock (request host path))
  | .exn e :: _ => .done (.error (.raised e))
  | .value _ :: answers => readAll sock (httpClose junk sock) [] answers

/-- `http_get`. A connect has no other values than sockets. -/
def httpGet (junk : ℕ → UInt8) (host path : String) : Code Fetched
  | [] => .perform (.tcpConnect host 80)
  | .value (.tcpSocket sock) :: answers => httpExchange junk sock host path answers
  | .value _ :: _ => .done (.error (.raised .unhandled))
  | .exn e :: _ => .done (.error (.raised e))

/-- The answers with which `read_all` has these chunks. -/
inductive Reads : List Pio.Bytes → List Answer → Prop
  | empty : Reads [] [.value (.bytes [])]
  | raised (e : Exn) : Reads [] [.exn e]
  | chunk {chunk : Pio.Bytes} {chunks : List Pio.Bytes} {answers : List Answer} : chunk ≠ [] →
      Reads chunks answers → Reads (chunk :: chunks) (.value (.bytes chunk) :: answers)

/-- How the effects of `http_get`, their answers and the result go together. -/
inductive Ended (host path : String) : List NetEff → List Answer → Fetched → Prop
  | unconnected {e : Exn} : (NetEff.tcpConnect host 80).raises e = true →
      Ended host path [.tcpConnect host 80] [.exn e] (.error (.raised e))
  | unwritten {sock : ℤ} {e : Exn} : e = .networkError "TCP write failed" →
      Ended host path [.tcpConnect host 80, .tcpWrite sock (request host path)]
        [.value (.tcpSocket sock), .exn e] (.error (.raised e))
  | tooLong {sock : ℤ} {sent : Val} {chunks : List Pio.Bytes} {answers : List Answer} {msg : String} :
      Reads chunks answers → maxStringLength < (joined (chunks.map bytes)).length →
      Ended host path
        (.tcpConnect host 80 :: .tcpWrite sock (request host path) ::
          List.replicate answers.length (.tcpRead sock))
        (.value (.tcpSocket sock) :: .value sent :: answers) (.error (.invalidArg msg))
  | returned {sock : ℤ} {sent : Val} {chunks : List Pio.Bytes} {answers : List Answer}
      {body : OcamlBytes.Bytes} :
      Reads chunks answers → (joined (chunks.map bytes)).length ≤ maxStringLength →
      IsBody (joined (chunks.map bytes)) body.data → Ended host path
        (.tcpConnect host 80 :: .tcpWrite sock (request host path) ::
          (List.replicate answers.length (.tcpRead sock) ++ [.tcpClose sock]))
        (.value (.tcpSocket sock) :: .value sent :: (answers ++ [.value .unit])) (.ok body)

variable {α : Type*} {junk : ℕ → UInt8} {host path : String} {sock : ℤ} {es : List NetEff}
  {answers : List Answer}

/-- `read_all` reads until a read gives nothing, and then what follows goes on. -/
theorem dialogue_readAll {next : List Pio.Bytes → Code α} {acc : List Pio.Bytes} {r : α}
    (h : Dialogue (readAll sock next acc) es answers) (hr : readAll sock next acc answers = .done r) :
    ∃ chunks reads rest es', Reads chunks reads ∧ answers = reads ++ rest ∧
      es = List.replicate reads.length (.tcpRead sock) ++ es' ∧
      Dialogue (next (acc.reverse ++ chunks)) es' rest ∧
      next (acc.reverse ++ chunks) rest = .done r := by
  induction answers generalizing acc es with
  | nil => cases hr
  | cons x answers ih =>
    obtain ⟨e, es', rfl, hread, hx, hrest⟩ := h.first
    cases hread
    -- the read that gives nothing is the last one
    have hstop : Reads [] [x] → (∀ l, readAll sock next acc (x :: l) = next acc.reverse l) →
        ∃ chunks reads rest es'', Reads chunks reads ∧ x :: answers = reads ++ rest ∧
          .tcpRead sock :: es' = List.replicate reads.length (.tcpRead sock) ++ es'' ∧
          Dialogue (next (acc.reverse ++ chunks)) es'' rest ∧
          next (acc.reverse ++ chunks) rest = .done r := by
      intro hreads hnext
      have hcode : (fun l => readAll sock next acc (x :: l)) = next acc.reverse := funext hnext
      rw [hcode] at hrest
      rw [hnext] at hr
      exact ⟨[], [x], answers, es', hreads, rfl, rfl, by rwa [List.append_nil], by rwa [List.append_nil]⟩
    cases x with
    | exn e => exact hstop (.raised e) fun _ => rfl
    | value v =>
      cases v with
      | bytes chunk =>
        cases chunk with
        | nil => exact hstop .empty fun _ => rfl
        | cons c chunk =>
          have hstep : ∀ l, readAll sock next acc (.value (.bytes (c :: chunk)) :: l) =
              readAll sock next ((c :: chunk) :: acc) l := by
            intro l
            rw [readAll, if_pos (by simp)]
          rw [funext hstep] at hrest
          rw [hstep] at hr
          obtain ⟨chunks, reads, rest, es'', hreads, rfl, rfl, hdia, hdone⟩ := ih hrest hr
          rw [List.reverse_cons, List.append_assoc, List.singleton_append] at hdia hdone
          exact ⟨(c :: chunk) :: chunks, .value (.bytes (c :: chunk)) :: reads, rest, es'',
            hreads.chunk (by simp), rfl, rfl, hdia, hdone⟩
      | _ => cases hx

theorem httpClose_ended {chunks : List Pio.Bytes} {r : Fetched}
    (h : Dialogue (httpClose junk sock chunks) es answers)
    (hr : httpClose junk sock chunks answers = .done r) :
    (∃ msg, es = [] ∧ answers = [] ∧ maxStringLength < (joined (chunks.map bytes)).length ∧
        r = .error (.invalidArg msg)) ∨
      ∃ body, es = [.tcpClose sock] ∧ answers = [.value .unit] ∧
        (joined (chunks.map bytes)).length ≤ maxStringLength ∧
        IsBody (joined (chunks.map bytes)) body.data ∧ r = .ok body := by
  cases hc : concatChunks junk (chunks.map bytes) with
  | error msg =>
    have hdone : ∀ l, httpClose junk sock chunks l = .done (.error (.invalidArg msg)) := by
      intro l
      simp only [httpClose, hc]
    have hlong : maxStringLength < (joined (chunks.map bytes)).length := by
      by_contra hfits
      have hok : concatChunks junk (chunks.map bytes) = .ok ⟨_, Nat.le_of_not_lt hfits⟩ :=
        concatChunks_iff.mpr rfl
      rw [hc] at hok
      cases hok
    rw [hdone] at hr
    cases hr
    obtain ⟨rfl, rfl⟩ := h.finished (hdone [])
    exact .inl ⟨msg, rfl, rfl, hlong, rfl⟩
  | ok response =>
    right
    cases answers with
    | nil => simp [httpClose, hc] at hr
    | cons x answers =>
      obtain ⟨e, es', rfl, hclose, hx, hrest⟩ := h.first
      simp only [httpClose, hc, Doing.perform.injEq] at hclose
      subst hclose
      cases x with
      | exn e => cases hx
      | value v =>
        obtain ⟨body, hfind, hbody⟩ := findBody_eq response
        have hdone : ∀ l, httpClose junk sock chunks (.value v :: l) = .done (.ok body) := by
          intro l
          simp only [httpClose, hc, hfind, Except.mapError]
        rw [hdone] at hr
        cases hr
        obtain ⟨rfl, rfl⟩ := hrest.finished (hdone [])
        have hjoined := concatChunks_iff.mp hc
        rw [← hjoined] at hbody
        cases v with
        | unit => exact ⟨body, rfl, rfl, by rw [hjoined]; exact response.fits, hbody, rfl⟩
        | _ => cases hx

theorem httpExchange_ended {r : Fetched} (h : Dialogue (httpExchange junk sock host path) es answers)
    (hr : httpExchange junk sock host path answers = .done r) :
    Ended host path (.tcpConnect host 80 :: es) (.value (.tcpSocket sock) :: answers) r := by
  cases answers with
  | nil => cases hr
  | cons x answers =>
    obtain ⟨e, es', rfl, hwrite, hx, hrest⟩ := h.first
    cases hwrite
    cases x with
    | exn e =>
      obtain ⟨rfl, rfl⟩ := hrest.finished rfl
      rw [← Doing.done.inj hr]
      exact .unwritten (of_decide_eq_true hx)
    | value v =>
      obtain ⟨chunks, reads, rest, es'', hreads, rfl, rfl, hdia, hdone⟩ := dialogue_readAll hrest hr
      rcases httpClose_ended hdia hdone with ⟨msg, rfl, rfl, hlong, rfl⟩ |
        ⟨body, rfl, rfl, hfits, hbody, rfl⟩
      · rw [List.append_nil, List.append_nil]
        exact .tooLong hreads hlong
      · exact .returned hreads hfits hbody

theorem httpGet_ended {r : Fetched} (h : Dialogue (httpGet junk host path) es answers)
    (hr : httpGet junk host path answers = .done r) : Ended host path es answers r := by
  cases answers with
  | nil => cases hr
  | cons x answers =>
    obtain ⟨e, es', rfl, hconnect, hx, hrest⟩ := h.first
    cases hconnect
    cases x with
    | exn e =>
      obtain ⟨rfl, rfl⟩ := hrest.finished rfl
      rw [← Doing.done.inj hr]
      exact .unconnected hx
    | value v =>
      cases v with
      | tcpSocket sock => exact httpExchange_ended hrest hr
      | _ => cases hx

section

open Pio (Accounted Act Externals Follows Network State Step Thread Turn asks made network
  run_accounted run_follow
  run_balanced run_sane)

/-- Whatever the other fibers and the network do while it runs, `http_get` that comes to its end has
performed its effects as if it were alone, and its result is the body of what its own reads gave. -/
theorem httpGet_run {W : Type*} {X : Externals W} {world : W} {pre : List (Act × State W)}
    {xs : List (Act × (State W × Thread))} {r : Fetched}
    (hpre : Lts.Run (Step X) (State.initial world) pre)
    (hh : (Lts.last (State.initial world) pre).Handled)
    (hrun : Lts.Run (Follows X (httpGet junk host path))
      (Lts.last (State.initial world) pre, .acts []) xs)
    (hlast : (Lts.last (Lts.last (State.initial world) pre, .acts []) xs).2 = .acts answers)
    (hr : httpGet junk host path answers = .done r) :
    Ended host path (Lts.gather asks (Lts.last (State.initial world) pre, .acts []) xs)
      (Lts.gather (made X) (Lts.last (State.initial world) pre, .acts []) xs) r := by
  have hacc := run_accounted hrun (run_sane hpre).last (run_balanced hpre).last ⟨rfl, .nil, hh⟩
  rw [List.nil_append, List.nil_append] at hacc
  rw [Accounted, hlast] at hacc
  obtain ⟨hmade, hdia, -⟩ := hacc
  rw [hmade]
  exact httpGet_ended hdia hr

/-- A server that sends its response in two segments, cut inside the empty line, and closes. -/
def serving (n : ℕ) : Turn :=
  ⟨if n = 5 then [.tcpConnected 0 NetStubs.errOk]
    else if n = 11 then [.tcpRecv 0 0 (some [72, 13, 10]) NetStubs.errOk]
    else if n = 17 then [.tcpRecv 0 0 (some [13, 10, 66]) NetStubs.errOk]
    else if n = 20 then [.tcpRecv 0 0 none NetStubs.errOk] else [],
    true, true, true, NetStubs.errOk, 0, .failed, some 16777343⟩

def mainFiber : List (Act × State Network) :=
  Lts.trace (Pio.next network) (State.initial (.initial serving)) [.switchRun, .go]

def fetches : List (Act × (State Network × Thread)) :=
  Lts.trace (Pio.follow network (httpGet (fun _ => 0) "127.0.0.1" "/"))
    (Lts.last (State.initial (.initial serving)) mainFiber, .acts [])
    [.perform (.net (.tcpConnect "127.0.0.1" 80)), .go, .go, .go, .go,
      .perform (.net (.tcpWrite 0 (request "127.0.0.1" "/"))), .go, .perform (.net (.tcpRead 0)), .go,
      .perform (.net (.tcpRead 0)), .go, .perform (.net (.tcpRead 0)), .go,
      .perform (.net (.tcpClose 0)), .go]

theorem httpGet_run_serving : ∃ body, Ended "127.0.0.1" "/"
    (Lts.gather asks (Lts.last (State.initial (.initial serving)) mainFiber, .acts []) fetches)
    (Lts.gather (made network) (Lts.last (State.initial (.initial serving)) mainFiber, .acts []) fetches)
    (.ok body) := by
  obtain ⟨body, hfind, -⟩ := findBody_eq ⟨[72, 13, 10, 13, 10, 66], by decide⟩
  have hconcat : concatChunks (fun _ => 0) ([[72, 13, 10], [13, 10, 66]].map bytes) =
      .ok ⟨[72, 13, 10, 13, 10, 66], by decide⟩ := concatChunks_iff.mpr rfl
  have hclose : httpClose (fun _ => 0) 0 [[72, 13, 10], [13, 10, 66]] [.value .unit] =
      .done (.ok body) := by
    simp only [httpClose, hconcat, hfind, Except.mapError]
  have hdone : httpGet (fun _ => 0) "127.0.0.1" "/" [.value (.tcpSocket 0), .value (.int 70),
      .value (.bytes [72, 13, 10]), .value (.bytes [13, 10, 66]), .exn .socketClosed, .value .unit] =
        .done (.ok body) := by
    simp [httpGet, httpExchange, readAll, hclose]
  exact ⟨body, httpGet_run (Lts.run_accepts Pio.Enabled (by decide)) rfl (run_follow (by decide))
    (by decide) hdone⟩

end

end PicoOcaml.Hello

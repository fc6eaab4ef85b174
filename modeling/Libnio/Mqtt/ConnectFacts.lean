import Mathlib.Data.List.Induction
import Libnio.Mqtt.Connect
import Libnio.Mqtt.Packet

/-!
# Mqtt — the CONNECT round trip

The parser run over one string field (`run_string`), then over the optional
fields from the last one backwards, each with the flag bits that announce
what follows it; and what `toString` sets these bits to.
-/

namespace Libnio.Mqtt

open Stream

namespace MqttConnect

def parser (past : UInt8) : MessageParser MqttConnect :=
  { ofHeader := ofHeader past, finished := MqttConnect.finished, update, run, Inv
    update_eq := fun _ _ hd => if_neg hd
    lawful := connect_lawful
    inv_ofHeader := inv_ofHeader past }

theorem parser_run (past : UInt8) (header : MqttHeader) (data : Bytes) :
    (parser past).run ((parser past).ofHeader header) data
      = run (ofHeader past header) data := rfl

/-! ## Runs over the fields -/

theorem fills_buff (m : MqttConnect) {n : Nat} (hn : n ≤ 10) :
    Fills (fun m : MqttConnect => m.dlen < n) putBuff
      (fun xs => { m with buff := fill m.buff xs, dlen := xs.length }) n :=
  .of_store (f := fun buff dlen => { m with buff, dlen }) hn (fun _ _ _ => rfl)
    (fun _ _ b hk => putBuff_eq (Nat.lt_of_lt_of_le hk hn) b) m.buff

/-- Where the parser is once it has read the variable header. -/
def afterHeaderVar (past : UInt8) (header : MqttHeader) (xs : Bytes) : MqttConnect :=
  { ofHeader past header with
    buff := fill (Vector.replicate 10 0) xs, connFlags := xs.getD 7 0,
    keepAlive := UInt16.ofNat (short (xs.getD 9 0) past), status := .cidLen }

theorem run_headerVar (past : UInt8) (header : MqttHeader) {xs : Bytes}
    (hx : xs.length = 10) (rest : Bytes) :
    run (ofHeader past header) (xs ++ rest) = run (afterHeaderVar past header xs) rest := by
  have hall := (fills_buff (ofHeader past header) (n := 10) (by decide)).run_all .timeout
    headerVarGuard headerVarNext
    (s := ofHeader past header) (by simp [ofHeader]) connect_resumable
    (inv_ofHeader past header) rfl (fun data _ => rfl) rfl hx (by decide) rest
  have hget : ∀ (i : Fin 10), (fill (ofHeader past header).buff xs).get i = xs.getD i 0 := by
    intro i
    rw [get_fill _ i (by rw [hx]; exact i.isLt), List.getD_eq_getElem?_getD,
      List.getElem?_eq_getElem (by rw [hx]; exact i.isLt)]
    rfl
  refine hall.trans ?_
  simp only [headerVarNext, hget, unpackShort_two, ok_bind]
  rfl

/-- A string with its length in front. -/
def str (s : Bytes) : Bytes :=
  msb (UInt16.ofNat s.length) :: lsb (UInt16.ofNat s.length) :: s

/-- A state that reads a length. -/
structure AtLen (go : MqttConnect → MqttConnect) (m : MqttConnect) : Prop where
  handlers_eq : handlers m = saveLength go m
  dlen_eq : m.dlen = 0
  unfinished : m.finished = false
  inv : Inv m

/-- A state that reads `n` characters; `add xs` puts characters into the field. -/
structure AtVal (go : MqttConnect → MqttConnect) (add : Bytes → MqttConnect) (n : Nat)
    (m : MqttConnect) : Prop where
  handlers_eq : ∃ put, handlers m = saveData put go m ∧
    ∀ xs b d d', { put { add xs with dlen := d } b with dlen := d' }
      = { add (xs ++ [b]) with dlen := d' }
  add_nil : { add [] with dlen := n } = m
  unfinished : ∀ xs, (add xs).finished = false
  inv : Inv m

theorem run_len {go : MqttConnect → MqttConnect} {m : MqttConnect} (h : AtLen go m)
    (hi lo : UInt8) (rest : Bytes) :
    run m (hi :: lo :: rest)
      = run (go { m with buff := fill m.buff [hi, lo], dlen := short hi lo }) rest := by
  have hall := (fills_buff m (n := 2) (by decide)).run_all .timeout
    (fun _ => .ok ()) (saveLengthNext go) (s := m) (by simp [← h.dlen_eq])
    connect_resumable h.inv h.unfinished (fun data _ => by rw [h.handlers_eq]; rfl) rfl
    (show [hi, lo].length = 2 from rfl) (by decide) rest
  refine hall.trans ?_
  simp only [saveLengthNext, unpackShort_fill (n := 10) _ 0 1 rfl rfl, ok_bind, toNat_short]
  rfl

theorem run_len_part {go : MqttConnect → MqttConnect} {m : MqttConnect} (h : AtLen go m)
    {xs : Bytes} (hx : xs.length < 2) :
    ∃ m', run m xs = .ok (m', []) ∧ m'.finished = false :=
  ⟨_, (fills_buff m (n := 2) (by decide)).run_part .timeout
    (fun _ => .ok ()) (saveLengthNext go) (s := m) (by simp [← h.dlen_eq]) connect_resumable h.inv
    h.unfinished (fun data _ => by rw [h.handlers_eq]; rfl) rfl hx, h.unfinished⟩

theorem fills_val {add : Bytes → MqttConnect} (n : Nat)
    {put : MqttConnect → UInt8 → MqttConnect}
    (hput : ∀ xs b d d', { put { add xs with dlen := d } b with dlen := d' }
      = { add (xs ++ [b]) with dlen := d' }) :
    Fills (fun m : MqttConnect => m.dlen > 0) (putData put)
      (fun xs => { add xs with dlen := n - xs.length }) n :=
  .of_countdown (f := fun xs dlen => { add xs with dlen }) (fun _ _ => rfl)
    (fun xs b d => by rw [putData, hput]) n

theorem AtVal.finished {go : MqttConnect → MqttConnect} {add : Bytes → MqttConnect}
    {n : Nat} {m : MqttConnect} (h : AtVal go add n m) : m.finished = false := by
  rw [← h.add_nil]
  exact h.unfinished []

theorem run_val {go : MqttConnect → MqttConnect} {add : Bytes → MqttConnect}
    {m : MqttConnect} {xs : Bytes} (h : AtVal go add xs.length m) (h0 : xs ≠ [])
    (rest : Bytes) : run m (xs ++ rest) = run (go { add xs with dlen := 0 }) rest := by
  obtain ⟨put, hh, hput⟩ := h.handlers_eq
  have hpos := List.length_pos_iff.mpr h0
  have hd : m.dlen = xs.length := by rw [← h.add_nil]
  have hall := (fills_val xs.length hput).run_all .timeout
    saveDataGuard (fun m => .ok (go m)) (s := m)
    (by simpa using h.add_nil) connect_resumable h.inv h.finished
    (fun data _ => by rw [hh]; rfl) (if_neg (by omega)) rfl hpos rest
  refine hall.trans ?_
  rw [Nat.sub_self]
  rfl

theorem run_val_part {go : MqttConnect → MqttConnect} {add : Bytes → MqttConnect}
    {n : Nat} {m : MqttConnect} (h : AtVal go add n m) {xs : Bytes} (hx : xs.length < n) :
    ∃ m', run m xs = .ok (m', []) ∧ m'.finished = false := by
  obtain ⟨put, hh, hput⟩ := h.handlers_eq
  have hd : m.dlen = n := by rw [← h.add_nil]
  exact ⟨_, (fills_val n hput).run_part .timeout
    saveDataGuard (fun m => .ok (go m)) (s := m) (by simpa using h.add_nil) connect_resumable h.inv
    h.finished (fun data _ => by rw [hh]; rfl) (if_neg (by omega)) hx, h.unfinished xs⟩

/-! ## The five string fields -/

section Strings

variable {m : MqttConnect} {n : Nat}

theorem atLen_cid (hst : m.status = .cidLen) (hd : m.dlen = 0) (hf : m.finished = false) :
    AtLen (goVal .cidVal goWill) m :=
  ⟨by funext d; rw [handlers, hst]; rfl, hd, hf,
    fun _ => by rw [hst, hd]; exact Nat.zero_lt_two⟩

theorem atVal_cid (hst : m.status = .cidVal) (hd : m.dlen = n) (hn : 0 < n)
    (hf : m.finished = false) :
    AtVal goWill (fun xs => { m with cid := m.cid ++ xs }) n m :=
  ⟨⟨addCid, by funext d; rw [handlers, hst]; rfl, fun _ _ _ _ => by simp [addCid]⟩,
    by simp [← hd], fun _ => hf, fun _ => by rw [hst, hd]; exact hn⟩

theorem atLen_willTopic (hst : m.status = .willTopicLen) (hd : m.dlen = 0)
    (hf : m.finished = false) :
    AtLen (fun m => { m with status := .willTopicVal }) m :=
  ⟨by funext d; rw [handlers, hst]; rfl, hd, hf,
    fun _ => by rw [hst, hd]; exact Nat.zero_lt_two⟩

theorem atVal_willTopic (hst : m.status = .willTopicVal) (hd : m.dlen = n)
    (hf : m.finished = false) :
    AtVal (fun m => { m with status := .willMsgLen })
      (fun xs => { m with willTopic := m.willTopic ++ xs }) n m :=
  ⟨⟨addWillTopic, by funext d; rw [handlers, hst]; rfl,
      fun _ _ _ _ => by simp [addWillTopic]⟩,
    by simp [← hd], fun _ => hf, fun _ => by rw [hst]; trivial⟩

theorem atLen_willMsg (hst : m.status = .willMsgLen) (hd : m.dlen = 0)
    (hf : m.finished = false) : AtLen (goVal .willMsgVal goUsername) m :=
  ⟨by funext d; rw [handlers, hst]; rfl, hd, hf,
    fun _ => by rw [hst, hd]; exact Nat.zero_lt_two⟩

theorem atVal_willMsg (hst : m.status = .willMsgVal) (hd : m.dlen = n) (hn : 0 < n)
    (hf : m.finished = false) :
    AtVal goUsername (fun xs => { m with willMsg := m.willMsg ++ xs }) n m :=
  ⟨⟨addWillMsg, by funext d; rw [handlers, hst]; rfl, fun _ _ _ _ => by simp [addWillMsg]⟩,
    by simp [← hd], fun _ => hf, fun _ => by rw [hst, hd]; exact hn⟩

theorem atLen_username (hst : m.status = .usernameLen) (hd : m.dlen = 0)
    (hf : m.finished = false) : AtLen (goVal .usernameVal goPasswd) m :=
  ⟨by funext d; rw [handlers, hst]; rfl, hd, hf,
    fun _ => by rw [hst, hd]; exact Nat.zero_lt_two⟩

theorem atVal_username (hst : m.status = .usernameVal) (hd : m.dlen = n) (hn : 0 < n)
    (hf : m.finished = false) :
    AtVal goPasswd (fun xs => { m with username := m.username ++ xs }) n m :=
  ⟨⟨addUsername, by funext d; rw [handlers, hst]; rfl,
      fun _ _ _ _ => by simp [addUsername]⟩,
    by simp [← hd], fun _ => hf, fun _ => by rw [hst, hd]; exact hn⟩

theorem atLen_passwd (hst : m.status = .passwdLen) (hd : m.dlen = 0)
    (hf : m.finished = false) :
    AtLen (goVal .passwdVal fun m => { m with finished := true }) m :=
  ⟨by funext d; rw [handlers, hst]; rfl, hd, hf,
    fun _ => by rw [hst, hd]; exact Nat.zero_lt_two⟩

theorem atVal_passwd (hst : m.status = .passwdVal) (hd : m.dlen = n) (hn : 0 < n)
    (hf : m.finished = false) :
    AtVal (fun m => { m with finished := true })
      (fun xs => { m with passwd := m.passwd ++ xs }) n m :=
  ⟨⟨addPasswd, by funext d; rw [handlers, hst]; rfl, fun _ _ _ _ => by simp [addPasswd]⟩,
    by simp [← hd], fun _ => hf, fun _ => by rw [hst, hd]; exact hn⟩

end Strings

/-- A non-empty string read through both of its states. -/
theorem run_string {valSt : ConnectStatus} {go : MqttConnect → MqttConnect}
    {m : MqttConnect} {s : Bytes} (hs : s ≠ []) (hl : s.length ≤ 65535)
    {add : Bytes → MqttConnect} (hlen : AtLen (goVal valSt go) m)
    (hval : AtVal go add s.length
      { m with buff := fill m.buff [msb (UInt16.ofNat s.length), lsb (UInt16.ofNat s.length)],
               dlen := s.length, status := valSt }) (rest : Bytes) :
    run m (str s ++ rest) = run (go { add s with dlen := 0 }) rest := by
  have hpos := List.length_pos_iff.mpr hs
  rw [str, List.cons_append, List.cons_append, run_len hlen, ← short_length hl, goVal,
    if_pos hpos]
  exact run_val hval hs rest

/-- An empty string. -/
theorem run_string_nil {valSt : ConnectStatus} {go : MqttConnect → MqttConnect}
    {m : MqttConnect} (hlen : AtLen (goVal valSt go) m) (rest : Bytes) :
    run m (str [] ++ rest) = run (go { m with buff := fill m.buff [0, 0] }) rest := by
  have hd := hlen.dlen_eq
  have hrun := run_len hlen 0 0 rest
  rw [show short 0 0 = 0 from rfl, goVal, if_neg (Nat.lt_irrefl 0)] at hrun
  refine hrun.trans ?_
  rw [← hd]

/-! ## The optional fields, from the last one backwards -/

/-- What the parser holds after a packet. -/
structure Decoded (cid username passwd willTopic willMsg : Bytes) (flags : UInt8)
    (m : MqttConnect) : Prop where
  finished : m.finished = true
  cid_eq : m.cid = cid
  username_eq : m.username = username
  passwd_eq : m.passwd = passwd
  willTopic_eq : m.willTopic = willTopic
  willMsg_eq : m.willMsg = willMsg
  connFlags_eq : m.connFlags = flags

/-- A string that is left out when it is empty. -/
def optStr (s : Bytes) : Bytes := if s = [] then [] else str s

theorem run_goPasswd {m : MqttConnect} (hf : m.finished = false) (hd : m.dlen = 0)
    (hm : m.passwd = []) {p : Bytes} (hp : p.length ≤ 65535)
    (hflag : m.connFlags &&& 0x40 ≠ 0 ↔ p ≠ []) :
    ∃ m', Decoded m.cid m.username p m.willTopic m.willMsg m.connFlags m' ∧
      ∀ rest, run (goPasswd m) (optStr p ++ rest) = .ok (m', rest) := by
  unfold goPasswd optStr
  by_cases h : p = []
  · rw [if_neg (fun hc => hflag.mp hc h), if_pos h]
    exact ⟨{ m with finished := true }, ⟨rfl, rfl, rfl, by rw [h]; exact hm, rfl, rfl, rfl⟩,
      fun rest => run_stop (.inr rfl)⟩
  · rw [if_pos (hflag.mpr h), if_neg h]
    refine ⟨{ m with
        buff := fill m.buff [msb (UInt16.ofNat p.length), lsb (UInt16.ofNat p.length)],
        passwd := m.passwd ++ p, dlen := 0, status := .passwdVal, finished := true },
      ⟨rfl, rfl, rfl, by rw [hm]; rfl, rfl, rfl, rfl⟩, fun rest => ?_⟩
    exact (run_string (m := { m with status := .passwdLen }) h hp (atLen_passwd rfl hd hf)
      (atVal_passwd rfl rfl (List.length_pos_iff.mpr h) hf) rest).trans (run_stop (.inr rfl))

theorem run_goUsername {m : MqttConnect} (hf : m.finished = false) (hd : m.dlen = 0)
    (hmu : m.username = []) (hmp : m.passwd = []) {u p : Bytes} (hu : u.length ≤ 65535)
    (hp : p.length ≤ 65535) (hflagu : m.connFlags &&& 0x80 ≠ 0 ↔ u ≠ [])
    (hflagp : m.connFlags &&& 0x40 ≠ 0 ↔ p ≠ []) :
    ∃ m', Decoded m.cid u p m.willTopic m.willMsg m.connFlags m' ∧
      ∀ rest, run (goUsername m) (optStr u ++ (optStr p ++ rest)) = .ok (m', rest) := by
  unfold goUsername
  by_cases h : u = []
  · rw [if_neg (fun hc => hflagu.mp hc h)]
    obtain ⟨m', hd', hrun⟩ := run_goPasswd hf hd hmp hp hflagp
    rw [hmu, ← h] at hd'
    exact ⟨m', hd', fun rest => by rw [optStr, if_pos h, List.nil_append, hrun]⟩
  · rw [if_pos (hflagu.mpr h)]
    obtain ⟨m', hd', hrun⟩ := run_goPasswd (m := { m with
        buff := fill m.buff [msb (UInt16.ofNat u.length), lsb (UInt16.ofNat u.length)],
        username := m.username ++ u, dlen := 0, status := .usernameVal }) hf rfl hmp hp hflagp
    simp only [hmu, List.nil_append] at hd'
    refine ⟨m', hd', fun rest => ?_⟩
    rw [optStr, if_neg h]
    exact (run_string (m := { m with status := .usernameLen }) h hu
      (atLen_username rfl hd hf)
      (atVal_username rfl rfl (List.length_pos_iff.mpr h) hf) _).trans (hrun rest)

/-- The will topic and the will message come together. -/
def optWill (t g : Bytes) : Bytes := if t ≠ [] ∧ g ≠ [] then str t ++ str g else []

theorem run_goWill {m : MqttConnect} (hf : m.finished = false) (hd : m.dlen = 0)
    (hmt : m.willTopic = []) (hmg : m.willMsg = []) (hmu : m.username = [])
    (hmp : m.passwd = []) {t g u p : Bytes} (ht : t.length ≤ 65535) (hg : g.length ≤ 65535)
    (hu : u.length ≤ 65535) (hp : p.length ≤ 65535)
    (hflagw : m.connFlags &&& 0x04 ≠ 0 ↔ t ≠ [] ∧ g ≠ [])
    (hflagu : m.connFlags &&& 0x80 ≠ 0 ↔ u ≠ [])
    (hflagp : m.connFlags &&& 0x40 ≠ 0 ↔ p ≠ []) :
    ∃ m', Decoded m.cid u p (if t ≠ [] ∧ g ≠ [] then t else [])
        (if t ≠ [] ∧ g ≠ [] then g else []) m.connFlags m' ∧
      ∀ rest, run (goWill m) (optWill t g ++ (optStr u ++ (optStr p ++ rest)))
        = .ok (m', rest) := by
  unfold goWill optWill
  by_cases h : t ≠ [] ∧ g ≠ []
  · rw [if_pos (hflagw.mpr h)]
    simp only [if_pos h]
    obtain ⟨m', hd', hrun⟩ := run_goUsername (m := { m with
        buff := fill (fill m.buff [msb (UInt16.ofNat t.length), lsb (UInt16.ofNat t.length)])
          [msb (UInt16.ofNat g.length), lsb (UInt16.ofNat g.length)],
        willTopic := m.willTopic ++ t, willMsg := m.willMsg ++ g, dlen := 0,
        status := .willMsgVal }) hf rfl hmu hmp hu hp hflagu hflagp
    simp only [hmt, hmg, List.nil_append] at hd'
    refine ⟨m', hd', fun rest => ?_⟩
    rw [List.append_assoc, str, List.cons_append, List.cons_append]
    have hlen := run_len (m := { m with status := .willTopicLen }) (atLen_willTopic rfl hd hf)
      (msb (UInt16.ofNat t.length)) (lsb (UInt16.ofNat t.length))
    have hval := fun rest => run_val (m := { m with
        buff := fill m.buff [msb (UInt16.ofNat t.length), lsb (UInt16.ofNat t.length)],
        dlen := t.length, status := .willTopicVal }) (atVal_willTopic rfl rfl hf) h.1 rest
    have hmsg := fun rest => run_string (m := { m with
        buff := fill m.buff [msb (UInt16.ofNat t.length), lsb (UInt16.ofNat t.length)],
        willTopic := m.willTopic ++ t, dlen := 0, status := .willMsgLen }) h.2 hg
      (atLen_willMsg rfl rfl hf) (atVal_willMsg rfl rfl (List.length_pos_iff.mpr h.2) hf) rest
    rw [← short_length ht] at hlen
    exact (hlen _).trans ((hval _).trans ((hmsg _).trans (hrun rest)))
  · have hw : ¬ m.connFlags &&& 0x04 ≠ 0 := fun hc => h (hflagw.mp hc)
    rw [if_neg hw]
    simp only [if_neg h]
    obtain ⟨m', hd', hrun⟩ := run_goUsername hf hd hmu hmp hu hp hflagu hflagp
    rw [hmt, hmg] at hd'
    exact ⟨m', hd', fun rest => by rw [List.nil_append, hrun]⟩

/-- The bytes after the fixed header. -/
def wireBody (flags : UInt8) (keepAlive : UInt16) (cid t g u p : Bytes) : Bytes :=
  [0, 0x04, 0x4d, 0x51, 0x54, 0x54, 0x04, flags, msb keepAlive, lsb keepAlive] ++
    (str cid ++ (optWill t g ++ (optStr u ++ optStr p)))

/-- **The body of a packet is decoded**, and what follows it is left over. -/
theorem run_body (past : UInt8) (header : MqttHeader) {flags : UInt8} (keepAlive : UInt16)
    {cid t g u p : Bytes} (hc : cid.length ≤ 65535) (ht : t.length ≤ 65535)
    (hg : g.length ≤ 65535) (hu : u.length ≤ 65535) (hp : p.length ≤ 65535)
    (hflagw : flags &&& 0x04 ≠ 0 ↔ t ≠ [] ∧ g ≠ []) (hflagu : flags &&& 0x80 ≠ 0 ↔ u ≠ [])
    (hflagp : flags &&& 0x40 ≠ 0 ↔ p ≠ []) :
    ∃ m, Decoded cid u p (if t ≠ [] ∧ g ≠ [] then t else [])
        (if t ≠ [] ∧ g ≠ [] then g else []) flags m ∧
      ∀ rest, run (ofHeader past header) (wireBody flags keepAlive cid t g u p ++ rest)
        = .ok (m, rest) := by
  obtain ⟨xs, hxs⟩ : ∃ xs : Bytes, xs =
      [0, 0x04, 0x4d, 0x51, 0x54, 0x54, 0x04, flags, msb keepAlive, lsb keepAlive] :=
    ⟨_, rfl⟩
  have hwire : ∀ rest, wireBody flags keepAlive cid t g u p ++ rest
      = xs ++ (str cid ++ (optWill t g ++ (optStr u ++ (optStr p ++ rest)))) := by
    intro rest
    simp [wireBody, hxs]
  have hlen := atLen_cid (m := afterHeaderVar past header xs) rfl rfl rfl
  have hflags : (afterHeaderVar past header xs).connFlags = flags := by rw [hxs]; rfl
  by_cases h : cid = []
  · obtain ⟨m', hd', hrun⟩ := run_goWill (m := { afterHeaderVar past header xs with
        buff := fill (afterHeaderVar past header xs).buff [0, 0] }) rfl rfl rfl rfl rfl rfl
      ht hg hu hp (hflags ▸ hflagw) (hflags ▸ hflagu) (hflags ▸ hflagp)
    rw [hflags] at hd'
    subst h
    refine ⟨m', hd', fun rest => ?_⟩
    rw [hwire, run_headerVar past header (by rw [hxs]; rfl), run_string_nil hlen]
    exact hrun rest
  · obtain ⟨m', hd', hrun⟩ := run_goWill (m := { afterHeaderVar past header xs with
        buff := fill (afterHeaderVar past header xs).buff
          [msb (UInt16.ofNat cid.length), lsb (UInt16.ofNat cid.length)],
        cid := [] ++ cid, dlen := 0, status := .cidVal }) rfl rfl rfl rfl rfl rfl
      ht hg hu hp (hflags ▸ hflagw) (hflags ▸ hflagu) (hflags ▸ hflagp)
    rw [hflags] at hd'
    refine ⟨m', hd', fun rest => ?_⟩
    rw [hwire, run_headerVar past header (by rw [hxs]; rfl),
      run_string h hc hlen (atVal_cid rfl rfl (List.length_pos_iff.mpr h) rfl)]
    exact hrun rest

/-! ## Messages built with the setters -/

/-- A call on a message being built; `none` is a NULL pointer. -/
inductive Setter where
  | keepAlive (n : UInt16)
  | cid (s : Option Bytes)
  | username (s : Option Bytes)
  | passwd (s : Option Bytes)
  | willQos (qos : MqttQos)
  | willTopic (s : Option Bytes)
  | willMsg (s : Option Bytes)
  | cleanSession

def apply (m : MqttConnect) : Setter → MqttConnect
  | .keepAlive n => m.setKeepAlive n
  | .cid s => m.setCid s
  | .username s => m.setUsername s
  | .passwd s => m.setPasswd s
  | .willQos qos => m.setWillQos qos
  | .willTopic s => m.setWillTopic s
  | .willMsg s => m.setWillMsg s
  | .cleanSession => m.cleanSession

/-- The message after some calls. -/
def build (past : UInt8) (setters : List Setter) : MqttConnect :=
  setters.foldl apply (new past)

theorem setWillQos_facts (m : MqttConnect) (qos : MqttQos) :
    (m.setWillQos qos).header = m.header
      ∧ (m.connFlags &&& 0xc4 = 0 → (m.setWillQos qos).connFlags &&& 0xc4 = 0) := by
  have hbits : ∀ c : UInt8, c &&& 0xc4 = 0 → (c &&& ~~~(bit 4 ||| bit 3)) &&& 0xc4 = 0
      ∧ ((c &&& ~~~(bit 4)) ||| bit 3) &&& 0xc4 = 0
      ∧ ((c &&& ~~~(bit 3)) ||| bit 4) &&& 0xc4 = 0 := by
    rintro ⟨c⟩
    revert c
    decide +kernel
  cases qos with
  | qos0 => exact ⟨rfl, fun h => (hbits _ h).1⟩
  | qos1 => exact ⟨rfl, fun h => (hbits _ h).2.1⟩
  | qos2 => exact ⟨rfl, fun h => (hbits _ h).2.2⟩

theorem cleanSession_facts {c : UInt8} (h : c &&& 0xc4 = 0) :
    (c ||| 0x02) &&& 0xc4 = 0 := by
  obtain ⟨c⟩ := c
  revert c
  decide +kernel

/-- The setters leave the header and the flag bits of the optional fields alone. -/
theorem build_facts (past : UInt8) (setters : List Setter) :
    (build past setters).header = MqttHeader.new .connect
      ∧ (build past setters).connFlags &&& 0xc4 = 0 := by
  induction setters using List.reverseRecOn with
  | nil => exact ⟨rfl, by change (0 : UInt8) &&& 0xc4 = 0; decide⟩
  | append_singleton setters s ih =>
      simp only [build, List.foldl_append, List.foldl_cons, List.foldl_nil] at ih ⊢
      generalize setters.foldl apply (new past) = m at ih ⊢
      obtain ⟨hh, hf⟩ := ih
      cases s with
      | keepAlive n => exact ⟨hh, hf⟩
      | cid s => exact ⟨hh, hf⟩
      | username s => exact ⟨hh, hf⟩
      | passwd s => exact ⟨hh, hf⟩
      | willTopic s => exact ⟨hh, hf⟩
      | willMsg s => exact ⟨hh, hf⟩
      | willQos qos =>
          exact ⟨(setWillQos_facts m qos).1.trans hh, (setWillQos_facts m qos).2 hf⟩
      | cleanSession => exact ⟨hh, cleanSession_facts hf⟩

/-- The strings of a CONNECT. -/
inductive Text where
  | cid | username | passwd | willTopic | willMsg

def text (m : MqttConnect) : Text → Bytes
  | .cid => m.cid
  | .username => m.username
  | .passwd => m.passwd
  | .willTopic => m.willTopic
  | .willMsg => m.willMsg

namespace Setter

/-- The string that a call gives; NULL and the empty string are none. -/
def givenText (x : Text) (c : Setter) : Option Bytes :=
  match x, c with
  | .cid, cid s | .username, username s | .passwd, passwd s | .willTopic, willTopic s
  | .willMsg, willMsg s => (s.map cString).filter (· ≠ [])
  | _, _ => none

def givenKeepAlive : Setter → Option UInt16
  | keepAlive n => some n
  | _ => none

def givenWillQos : Setter → Option MqttQos
  | willQos qos => some qos
  | _ => none

end Setter

theorem assignUnlessEmpty_eq (s : Option Bytes) (old : Bytes) :
    assignUnlessEmpty s old = ((s.map cString).filter (· ≠ [])).getD old := by
  cases s with
  | none => rfl
  | some p => by_cases h : cString p = [] <;> simp [assignUnlessEmpty, Option.filter, h]

theorem apply_text (m : MqttConnect) (c : Setter) (x : Text) :
    (apply m c).text x = (Setter.givenText x c).getD (m.text x) := by
  cases c with
  | keepAlive n => cases x <;> rfl
  | cid s => cases x <;> first | rfl | exact assignUnlessEmpty_eq s m.cid
  | username s => cases x <;> first | rfl | exact assignUnlessEmpty_eq s m.username
  | passwd s => cases x <;> first | rfl | exact assignUnlessEmpty_eq s m.passwd
  | willQos qos => cases qos <;> cases x <;> rfl
  | willTopic s => cases x <;> first | rfl | exact assignUnlessEmpty_eq s m.willTopic
  | willMsg s => cases x <;> first | rfl | exact assignUnlessEmpty_eq s m.willMsg
  | cleanSession => cases x <;> rfl

/-- The two bits of the will QoS and the bit of the session. -/
theorem apply_flags (m : MqttConnect) (c : Setter) :
    (m.connFlags &&& 0x18 = m.willQos.code <<< (3 : UInt8) →
        (apply m c).connFlags &&& 0x18 = (apply m c).willQos.code <<< (3 : UInt8))
      ∧ ((apply m c).hasSession = true ↔ .cleanSession = c ∨ m.hasSession = true) := by
  have hqos : ∀ c : UInt8, (c &&& ~~~(bit 4 ||| bit 3)) &&& 0x18 = 0
      ∧ ((c &&& ~~~(bit 4)) ||| bit 3) &&& 0x18 = 0x08
      ∧ ((c &&& ~~~(bit 3)) ||| bit 4) &&& 0x18 = 0x10
      ∧ (c &&& ~~~(bit 4 ||| bit 3)) &&& 0x02 = c &&& 0x02
      ∧ ((c &&& ~~~(bit 4)) ||| bit 3) &&& 0x02 = c &&& 0x02
      ∧ ((c &&& ~~~(bit 3)) ||| bit 4) &&& 0x02 = c &&& 0x02
      ∧ (c ||| 0x02) &&& 0x18 = c &&& 0x18 ∧ (c ||| 0x02) &&& 0x02 ≠ 0 := by
    rintro ⟨c⟩
    revert c
    decide +kernel
  obtain ⟨h0, h1, h2, s0, s1, s2, hc, hs⟩ := hqos m.connFlags
  have hkept : ∀ m' : MqttConnect, m'.connFlags &&& 0x02 = m.connFlags &&& 0x02 →
      m'.hasSession = m.hasSession := by
    intro m' h
    rw [hasSession, hasSession, h]
  cases c with
  | willQos qos =>
      cases qos with
      | qos0 => exact ⟨fun _ => h0, by rw [apply, hkept _ s0]; simp⟩
      | qos1 => exact ⟨fun _ => h1, by rw [apply, hkept _ s1]; simp⟩
      | qos2 => exact ⟨fun _ => h2, by rw [apply, hkept _ s2]; simp⟩
  | cleanSession =>
      exact ⟨hc.trans, ⟨fun _ => .inl rfl, fun _ => decide_eq_true hs⟩⟩
  | _ => exact ⟨id, (Bool.eq_iff_iff.mp (hkept (apply m _) rfl)).trans (by simp)⟩

/-- **The setters store what they are given**: the client id and the other strings are
those given last, without the empty ones; and two bits of the flags say the QoS. -/
theorem build_stores (past : UInt8) (setters : List Setter) :
    (∀ x, (build past setters).text x
        = (setters.filterMap (Setter.givenText x)).getLast?.getD [])
      ∧ (build past setters).keepAlive
          = (setters.filterMap Setter.givenKeepAlive).getLast?.getD 300
      ∧ (build past setters).willQos
          = (setters.filterMap Setter.givenWillQos).getLast?.getD .qos0
      ∧ (build past setters).connFlags &&& 0x18
          = (build past setters).willQos.code <<< (3 : UInt8)
      ∧ ((build past setters).hasSession = true ↔ .cleanSession ∈ setters) := by
  have hkeep : ∀ m c, (apply m c).keepAlive = (Setter.givenKeepAlive c).getD m.keepAlive := by
    intro m c
    cases c with
    | willQos qos => cases qos <;> rfl
    | _ => rfl
  have hqos : ∀ m c, (apply m c).willQos = (Setter.givenWillQos c).getD m.willQos := by
    intro m c
    cases c with
    | willQos qos => cases qos <;> rfl
    | _ => rfl
  refine ⟨fun x => ?_, get_foldl keepAlive hkeep (new past) setters,
    get_foldl willQos hqos (new past) setters, ?_, ?_⟩
  · rw [build, get_foldl (fun m => text m x) (fun m c => apply_text m c x)]
    cases x <;> rfl
  · rw [build]
    induction setters using List.reverseRecOn with
    | nil => exact show (0 : UInt8) &&& 0x18 = MqttQos.code .qos0 <<< (3 : UInt8) by decide
    | append_singleton setters c ih =>
        rw [List.foldl_append, List.foldl_cons, List.foldl_nil]
        exact (apply_flags _ c).1 ih
  · rw [build]
    induction setters using List.reverseRecOn with
    | nil => simp [new, hasSession]
    | append_singleton setters c ih =>
        rw [List.foldl_append, List.foldl_cons, List.foldl_nil, (apply_flags _ c).2, ih,
          List.mem_append, List.mem_singleton, or_comm]

/-! ## Writing -/

/-- `if (yes) { conn_flags_ |= (1 << i); }` -/
def orIf (yes : Prop) [Decidable yes] (i : UInt8) (flags : UInt8) : UInt8 :=
  if yes then flags ||| bit i else flags

/-- The flags byte that `toString` sends. -/
def wireFlags (m : MqttConnect) : UInt8 :=
  orIf (m.willTopic ≠ [] ∧ m.willMsg ≠ []) 2
    (orIf (m.passwd ≠ []) 6 (orIf (m.username ≠ []) 7 m.connFlags))

/-- Each flag bit announces its field, and the session bit is kept. -/
theorem wireFlags_bits {m : MqttConnect} (hc : m.connFlags &&& 0xc4 = 0) :
    (wireFlags m &&& 0x04 ≠ 0 ↔ m.willTopic ≠ [] ∧ m.willMsg ≠ [])
      ∧ (wireFlags m &&& 0x80 ≠ 0 ↔ m.username ≠ [])
      ∧ (wireFlags m &&& 0x40 ≠ 0 ↔ m.passwd ≠ [])
      ∧ wireFlags m &&& 0x02 = m.connFlags &&& 0x02 := by
  have hbits : ∀ (c : UInt8) (w u p : Bool), c &&& 0xc4 = 0 →
      (orIf w 2 (orIf p 6 (orIf u 7 c)) &&& 0x04 ≠ 0 ↔ w = true)
        ∧ (orIf w 2 (orIf p 6 (orIf u 7 c)) &&& 0x80 ≠ 0 ↔ u = true)
        ∧ (orIf w 2 (orIf p 6 (orIf u 7 c)) &&& 0x40 ≠ 0 ↔ p = true)
        ∧ orIf w 2 (orIf p 6 (orIf u 7 c)) &&& 0x02 = c &&& 0x02 := by
    rintro ⟨c⟩
    revert c
    decide +kernel
  have h := hbits m.connFlags (decide (m.willTopic ≠ [] ∧ m.willMsg ≠ []))
    (decide (m.username ≠ [])) (decide (m.passwd ≠ [])) hc
  simp only [decide_eq_true_eq] at h
  exact h

/-- What a string takes that is left out when it is empty. -/
def optLen (s : Bytes) : Nat := if s ≠ [] then 2 + s.length else 0

def optWillLen (t g : Bytes) : Nat :=
  if t ≠ [] ∧ g ≠ [] then 2 + t.length + 2 + g.length else 0

theorem length_wireBody (flags : UInt8) (keepAlive : UInt16) (cid t g u p : Bytes) :
    (wireBody flags keepAlive cid t g u p).length
      = 12 + cid.length + optLen u + optLen p + optWillLen t g := by
  have hopt : ∀ s, (optStr s).length = optLen s := by
    intro s
    unfold optStr optLen
    split <;> simp_all [str]
    omega
  have hwill : (optWill t g).length = optWillLen t g := by
    unfold optWill optWillLen
    split <;> simp [str]
    omega
  simp only [wireBody, List.length_append, hopt, hwill, str, List.length_cons,
    List.length_nil]
  omega

/-- The fields that go into a packet have lengths that fit into two bytes. -/
structure Sendable (m : MqttConnect) : Prop where
  cid_le : m.cid.length ≤ 65535
  username_le : m.username.length ≤ 65535
  passwd_le : m.passwd.length ≤ 65535
  willTopic_le : m.willTopic.length ≤ 65535
  willMsg_le : m.willMsg.length ≤ 65535

/-- What each test in `to_string` for an optional field comes to. -/
theorem opt_eq (m : MqttConnect) (s : Bytes) (i : UInt8) (len : UInt32) :
    (if s ≠ [] then
        ({ m with connFlags := m.connFlags ||| bit i }, len + 2 + UInt32.ofNat s.length)
      else (m, len))
      = ({ m with connFlags := orIf (s ≠ []) i m.connFlags },
          len + UInt32.ofNat (optLen s)) := by
  unfold orIf optLen
  split
  · rw [UInt32.ofNat_add, UInt32.add_assoc]
    rfl
  · simp

theorem optWill_eq (m : MqttConnect) (len : UInt32) :
    (if m.willTopic ≠ [] ∧ m.willMsg ≠ [] then
        ({ m with connFlags := m.connFlags ||| bit 2 },
          len + 2 + UInt32.ofNat m.willTopic.length + 2 + UInt32.ofNat m.willMsg.length)
      else ({ m with willTopic := [], willMsg := [] }, len))
      = ({ m with
            connFlags := orIf (m.willTopic ≠ [] ∧ m.willMsg ≠ []) 2 m.connFlags,
            willTopic := if m.willTopic ≠ [] ∧ m.willMsg ≠ [] then m.willTopic else [],
            willMsg := if m.willTopic ≠ [] ∧ m.willMsg ≠ [] then m.willMsg else [] },
          len + UInt32.ofNat (optWillLen m.willTopic m.willMsg)) := by
  by_cases h : m.willTopic ≠ [] ∧ m.willMsg ≠ []
  · simp only [orIf, optWillLen, if_pos h, UInt32.ofNat_add]
    simp only [UInt32.add_assoc]
    rfl
  · simp only [orIf, optWillLen, if_neg h]
    simp

/-- The remaining length of the packet. -/
def remaining (m : MqttConnect) : Nat :=
  12 + m.cid.length + optLen m.username + optLen m.passwd + optWillLen m.willTopic m.willMsg

theorem optLen_le {s : Bytes} (h : s.length ≤ 65535) : optLen s ≤ 65537 := by
  unfold optLen
  split <;> omega

theorem Sendable.remaining_lt {m : MqttConnect} (hs : Sendable m) : m.remaining < 400000 := by
  have h1 := hs.cid_le
  have h2 := optLen_le hs.username_le
  have h3 := optLen_le hs.passwd_le
  have h4 : optWillLen m.willTopic m.willMsg ≤ 131074 := by
    have := hs.willTopic_le
    have := hs.willMsg_le
    unfold optWillLen
    split <;> omega
  unfold remaining
  omega

theorem packAddString_str {s : Bytes} (h : s.length ≤ 65535) (out : Bytes) :
    packAddString s out = out ++ str s :=
  packAddString_eq (by omega) out

theorem packAddString_opt {s : Bytes} (h : s.length ≤ 65535) (out : Bytes) :
    (if s ≠ [] then packAddString s out else out) = out ++ optStr s := by
  unfold optStr
  by_cases h0 : s = []
  · simp [h0]
  · rw [if_pos h0, if_neg h0, packAddString_str h]

theorem packAddString_will {t g : Bytes} (ht : t.length ≤ 65535) (hg : g.length ≤ 65535)
    (out : Bytes) :
    (if (if t ≠ [] ∧ g ≠ [] then t else []) ≠ [] ∧ (if t ≠ [] ∧ g ≠ [] then g else []) ≠ []
      then packAddString (if t ≠ [] ∧ g ≠ [] then g else [])
        (packAddString (if t ≠ [] ∧ g ≠ [] then t else []) out)
      else out) = out ++ optWill t g := by
  unfold optWill
  by_cases h : t ≠ [] ∧ g ≠ []
  · simp only [if_pos h, packAddString_str ht, packAddString_str hg, List.append_assoc]
  · simp only [if_neg h]
    simp

/-- **What is sent.** -/
theorem toString_eq {m : MqttConnect} (hh : m.header = MqttHeader.new .connect)
    (hs : Sendable m) (out : Bytes) :
    ∃ m', m.toString out = (true, m', out ++ MqttHeader.firstByte .connect 0 ::
      (Base128.encode m.remaining ++ wireBody (wireFlags m) m.keepAlive m.cid m.willTopic
        m.willMsg m.username m.passwd)) := by
  have hlt := hs.remaining_lt
  have hlen : 10 + 2 + UInt32.ofNat m.cid.length + UInt32.ofNat (optLen m.username)
      + UInt32.ofNat (optLen m.passwd) + UInt32.ofNat (optWillLen m.willTopic m.willMsg)
      = UInt32.ofNat m.remaining := by
    simp only [remaining, UInt32.ofNat_add]
    rfl
  have hbuild := MqttHeader.buildHeader_of
    (h := (MqttHeader.new .connect).setRemaingLength (UInt32.ofNat m.remaining))
    (n := m.remaining) (by
      change (UInt32.ofNat m.remaining).toNat = _
      rw [UInt32.toNat_ofNat']
      omega) (by omega) out
  unfold toString
  simp only [↓opt_eq, ↓optWill_eq, hlen, hh, hbuild, Bool.not_true, Bool.false_eq_true,
    if_false, packAddString_str hs.cid_le, packAddString_opt hs.username_le,
    packAddString_opt hs.passwd_le, packAddString_will hs.willTopic_le hs.willMsg_le]
  refine ⟨_, Prod.ext rfl (Prod.ext rfl ?_)⟩
  simp [packAddChar, packAddShort, wireBody, wireFlags]
  rfl

/-- `to_string` yields one packet whatever it appends to, and the packet is
parsed back to the same fields; the will topic and the will message only when
both are there. -/
def RoundTrips (past : UInt8) (m : MqttConnect) : Prop :=
  ∃ packet : Bytes, (∀ out, ∃ m', m.toString out = (true, m', out ++ packet)) ∧
    (parser past).Parses packet fun d =>
      d.cid = m.cid ∧ d.username = m.username ∧ d.passwd = m.passwd
        ∧ d.hasSession = m.hasSession
        ∧ d.willTopic = (if m.willTopic ≠ [] ∧ m.willMsg ≠ [] then m.willTopic else [])
        ∧ d.willMsg = (if m.willTopic ≠ [] ∧ m.willMsg ≠ [] then m.willMsg else [])

/-- **A CONNECT built with the setters is parsed back.** -/
theorem connect_roundTrips (past past' : UInt8) (setters : List Setter)
    (hs : Sendable (build past setters)) : RoundTrips past' (build past setters) := by
  obtain ⟨hh, hc⟩ := build_facts past setters
  generalize build past setters = m at *
  obtain ⟨hw, hu, hp, hsess⟩ := wireFlags_bits hc
  refine ⟨_, fun out => toString_eq hh hs out, MessageParser.parses_built (by simp) (by simp)
    (by have := hs.remaining_lt; omega) fun header _ _ _ => ?_⟩
  obtain ⟨d, hd, hrun⟩ := run_body past' header m.keepAlive hs.cid_le hs.willTopic_le
    hs.willMsg_le hs.username_le hs.passwd_le hw hu hp
  refine ⟨d, hd.finished, ⟨hd.cid_eq, hd.username_eq, hd.passwd_eq, ?_, hd.willTopic_eq,
    hd.willMsg_eq⟩, hrun⟩
  rw [hasSession, hasSession, hd.connFlags_eq, hsess]

/-- A client id, a user name, a will topic without a message, a clean session. -/
theorem connect_roundTrips_small :
    RoundTrips 0 (build 0 [.cid (some [0x61]), .username (some [0x62, 0x63]),
      .willTopic (some [0x74]), .cleanSession]) :=
  connect_roundTrips 0 0 [.cid (some [0x61]), .username (some [0x62, 0x63]),
      .willTopic (some [0x74]), .cleanSession]
    ⟨by decide, by decide, by decide, by decide, by decide⟩

end MqttConnect
end Libnio.Mqtt

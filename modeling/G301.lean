import G301.Lib.Path
import G301.Lib.BigEndian
import G301.Inner.Profile
import G301.Inner.Record
import G301.Inner.Session
import G301.Inner.SessionSpec
import G301.Inner.Duplex
import G301.Inner.History
import G301.Inner.Aead
import G301.Inner.Execution
import G301.Inner.Integrity
import G301.Inner.Completeness
import G301.Inner.Agreement
import G301.Inner.Fifo
import G301.Inner.Shutdown
import G301.Inner.Liveness
import G301.Outer.Cipher
import G301.Outer.CipherSpec
import G301.Outer.Records
import G301.Outer.Contract
import G301.Outer.Poison
import G301.Outer.TagFreshness
import G301.Outer.UsageLimit
import G301.Inner.Terminal
import G301.Inner.Wire
import G301.Inner.Grammar
import G301.Inner.Limits
import G301.Inner.Acceptance
import G301.Inner.Derivation
import G301.Inner.EncryptCalls
import G301.Inner.Fleet
import G301.Inner.Independence
import G301.Outer.TagRelease
import G301.Outer.Counter
import G301.Outer.Rejection
import G301.Outer.Staging
import G301.Lib.Lookup
import G301.Outer.Policy
import G301.Lib.Framing
import G301.Lib.Logged
import G301.Inner.Schedule
import G301.Inner.Labels
import G301.Outer.WriteKey
import G301.Lib.StreamAead
import G301.Outer.Evp
import G301.Outer.Provider
import G301.Outer.AeadRecord
import G301.Outer.RoundTrip
import G301.Lib.Heap
import G301.Outer.Lifecycle
import G301.Outer.System
import G301.Inner.CipherCalls

import Nixtropic.Hid.Ownership
import Nixtropic.Hid.Progress
import Nixtropic.Hid.Requests
import Nixtropic.Hid.Resync
import Nixtropic.Tropic.PinAttempts
import Nixtropic.Tropic.PinRetirement
import Nixtropic.Fido.TimeLimits
import Nixtropic.Fido.TokenContract
import Nixtropic.Fido.PinGuard
import Nixtropic.Fido.Assertions
import Nixtropic.Fido.Enumerations
import Nixtropic.Fido.Fits
import Nixtropic.Lists.Groups
import Nixtropic.Fido.Shelf
import Nixtropic.Fido.Listing
import Nixtropic.Fido.Confined
import Nixtropic.Fido.Bound
import Nixtropic.Fido.Twins
import Nixtropic.Cbor.Head
import Nixtropic.Cbor.Item
import Nixtropic.Cbor.Places
import Nixtropic.Fido.Reader
import Nixtropic.Fido.ReaderLogic
import Nixtropic.Fido.ReaderBounds
import Nixtropic.Fido.Validate
import Nixtropic.Cbor.Value
import Nixtropic.Fido.Writer
import Nixtropic.Fido.ReaderItems
import Nixtropic.Fido.RoundTrip
import Nixtropic.Fido.Ctap2Parse
import Nixtropic.Fido.RequestRules
import Nixtropic.Fido.ParseLogic
import Nixtropic.Fido.ParseMembers
import Nixtropic.Fido.OptionRules
import Nixtropic.Fido.ParseRequests
import Nixtropic.Hid.Messages
import Nixtropic.Hid.Fragments
import Nixtropic.Hid.Answers
import Nixtropic.Hid.Echo
import Nixtropic.Tropic.RecPairDecision
import Nixtropic.Crash.Watch
import Nixtropic.Tropic.RecPairInterrupted
import Nixtropic.Presence.Check
import Nixtropic.Hid.Latch
import Nixtropic.Presence.Consent
import Nixtropic.Presence.Device
import Nixtropic.Ber.Length
import Nixtropic.Ber.Tlv
import Nixtropic.Ber.Unsigned
import Nixtropic.Tropic.RecImage
import Nixtropic.Fido.Der
import Nixtropic.Pgp.Data
import Nixtropic.Pgp.PsoDec
import Nixtropic.Pgp.State
import Nixtropic.Pgp.Keys
import Nixtropic.Pgp.Lifecycle
import Nixtropic.Pgp.Response
import Nixtropic.Pgp.Applet
import Nixtropic.Pgp.Framing
import Nixtropic.Pgp.Emit
import Nixtropic.Pgp.DataObjects
import Nixtropic.Pgp.Session
import Nixtropic.Pgp.StateLogic
import Nixtropic.Pgp.Frame
import Nixtropic.Pgp.Policy
import Nixtropic.Pgp.PolicySteps
import Nixtropic.Pgp.PolicyRuns
import Nixtropic.Ccid.Messages
import Nixtropic.Ccid.Reader
import Nixtropic.Ccid.ReaderLogic
import Nixtropic.Ccid.ReaderRuns
import Nixtropic.Ccid.Contract
import Nixtropic.Presence.Cancellation
import Nixtropic.Crash.Returns
import Nixtropic.Fido.CredIter
import Nixtropic.Fido.CredIds
import Nixtropic.Fido.CredReuse
import Nixtropic.Fido.CredResolve
import Nixtropic.Fido.CredBits
import Nixtropic.Device.Isolation

import Lwrt.Verification.Dhcp.Acknowledgement
import Lwrt.Verification.Dhcp.Leases
import Lwrt.Verification.Dhcp.Offers
import Lwrt.Verification.Dhcp.Progress
import Lwrt.Verification.Dhcp.Readers
import Lwrt.Verification.Dhcp.Subnet
import Lwrt.Verification.Dns.Caching
import Lwrt.Verification.Dns.Hostnames
import Lwrt.Verification.Dns.LetterCase
import Lwrt.Verification.Dns.Messages
import Lwrt.Verification.Dns.Reading
import Lwrt.Verification.Dns.Transparency
import Lwrt.Verification.Fw.Contents
import Lwrt.Verification.Fw.Draining
import Lwrt.Verification.Fw.PortForward
import Lwrt.Verification.Fw.Reprogramming
import Lwrt.Verification.Httpd.Addressing
import Lwrt.Verification.Httpd.Clients
import Lwrt.Verification.Httpd.Fidelity
import Lwrt.Verification.Httpd.Forms
import Lwrt.Verification.Httpd.Markup
import Lwrt.Verification.Httpd.Requests
import Lwrt.Verification.Httpd.Responses
import Lwrt.Verification.Httpd.Saves
import Lwrt.Verification.Init.Supervision
import Lwrt.Verification.Ipkg.Failure
import Lwrt.Verification.Ipkg.LongPaths
import Lwrt.Verification.Ipkg.Offsets
import Lwrt.Verification.Ipkg.Provenance
import Lwrt.Verification.Ipkg.Publishing
import Lwrt.Verification.Log.Entries
import Lwrt.Verification.Mtd.Commands
import Lwrt.Verification.Mtd.Flashing
import Lwrt.Verification.Mtd.Naming
import Lwrt.Verification.Ntp.Eras
import Lwrt.Verification.Ubus.Framing
import Lwrt.Verification.Ubus.Providers
import Lwrt.Verification.Ubus.Registry
import Lwrt.Verification.Wg.Exchange
